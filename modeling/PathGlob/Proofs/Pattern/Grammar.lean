import PathGlob.Pattern.Item

/-! The items of a source, said without a reader.

`Reads before s item rest` says that `s`, which follows the character `before`, starts
with the item and goes on with `rest`. This is what `read` decides (`read_eq_ok`), and a
`Row` of such items is what `readAll` finds (`readAll_eq_ok`): a position only serves to
place an error. -/
namespace PathGlob.Item

/-- What may stand first in a source, and what is left behind it. -/
inductive Reads (before : Option Char) : Text → Item → Text → Prop where
  | char {c : Char} {s : Text} :
    c ≠ '?' → c ≠ '*' → c ≠ '[' → Reads before (c :: s) (char c) s
  | one {s : Text} : Reads before ('?' :: s) one s
  | run {s : Text} : s.head? ≠ some '*' → Reads before ('*' :: s) run s
  | last : before.all (· = '/') = true → Reads before ['*', '*'] (deep false) []
  | deep {s : Text} :
    before.all (· = '/') = true → Reads before ('*' :: '*' :: '/' :: s) (deep true) s
  | bracket {x : Char} {body s : Text} :
    x ≠ '!' → ']' ∉ body → Reads before ('[' :: x :: (body ++ ']' :: s)) (bracket false (x :: body)) s
  | negated {x : Char} {body s : Text} : ']' ∉ body →
    Reads before ('[' :: '!' :: x :: (body ++ ']' :: s)) (bracket true (x :: body)) s

variable {before : Option Char} {pos : Nat} {c : Char} {s rest : Text} {item : Item}

/-! ### The reader finds what stands first -/

theorem readMembers_eq_ok {negated : Bool} {x : Char} :
    readMembers negated pos x s = .ok (item, rest) ↔
      ∃ body, ']' ∉ body ∧ s = body ++ ']' :: rest ∧ item = bracket negated (x :: body) := by
  unfold readMembers
  constructor
  · intro h
    split at h
    case isFalse => cases h
    case isTrue hs =>
      cases h
      refine ⟨s.takeWhile (· ≠ ']'), ?_, (takeWhile_append_close hs).symm, rfl⟩
      intro hm
      exact absurd (List.all_eq_true.1 List.all_takeWhile _ hm) (by simp)
  · intro hq
    obtain ⟨body, hb, rfl, rfl⟩ := hq
    have hall : ∀ a ∈ body, (a ≠ ']' : Bool) = true := by
      intro a ha
      simp only [ne_eq, decide_not, Bool.not_eq_true', decide_eq_false_iff_not]
      intro hq
      subst hq
      exact hb ha
    rw [if_pos (by simp), List.takeWhile_append_of_pos hall, List.dropWhile_append_of_pos hall]
    simp

theorem readBracket_eq_ok :
    readBracket pos s = .ok (item, rest) ↔ Reads before ('[' :: s) item rest := by
  constructor
  · intro h
    unfold readBracket at h
    split at h
    · cases h
    · split at h
      case isTrue hx =>
        split at h
        · cases h
        · obtain ⟨body, hb, rfl, rfl⟩ := readMembers_eq_ok.1 h
          rw [hx]
          exact .negated hb
      case isFalse hx =>
        obtain ⟨body, hb, rfl, rfl⟩ := readMembers_eq_ok.1 h
        exact .bracket hx hb
  · intro h
    cases h with
    | char _ _ h => exact absurd rfl h
    | bracket hx hb =>
      refine (if_neg hx).trans ?_
      exact readMembers_eq_ok.2 ⟨_, hb, rfl, rfl⟩
    | negated hb => exact readMembers_eq_ok.2 ⟨_, hb, rfl, rfl⟩

theorem readStars_eq_ok :
    readStars before pos s = .ok (item, rest) ↔ Reads before ('*' :: s) item rest := by
  constructor
  · intro h
    unfold readStars at h
    split at h
    · cases h
    · unfold readDeep at h
      split at h
      · cases h
      · rename_i hb
        have hstart : before.all (· = '/') = true := by
          cases before with
          | none => rfl
          | some b => simpa using hb
        split at h
        · cases h
          exact .last hstart
        · split at h
          · rename_i hc
            cases h
            rw [hc]
            exact .deep hstart
          · cases h
    · rename_i hs
      cases h
      refine .run fun hh => ?_
      cases s with
      | nil => cases hh
      | cons d s => exact hs _ (by rw [Option.some.inj hh])
  · intro h
    cases h with
    | char _ h _ => exact absurd rfl h
    | run h =>
      unfold readStars
      split
      · exact absurd rfl h
      · exact absurd rfl h
      · rfl
    | last h =>
      cases before with
      | none => rfl
      | some b =>
        have hb : b = '/' := by simpa using h
        rw [hb]
        rfl
    | deep h =>
      cases before with
      | none => rfl
      | some b =>
        have hb : b = '/' := by simpa using h
        rw [hb]
        rfl

/-- **An item is read off a source exactly when it stands first there.** -/
theorem read_eq_ok :
    read before pos c s = .ok (item, rest) ↔ Reads before (c :: s) item rest := by
  unfold read
  by_cases h₁ : c = '?'
  · rw [if_pos h₁, h₁]
    constructor
    · intro h
      cases h
      exact .one
    · intro h
      cases h with
      | char h _ _ => exact absurd rfl h
      | one => rfl
  by_cases h₂ : c = '*'
  · rw [if_neg h₁, if_pos h₂, h₂]
    exact readStars_eq_ok
  by_cases h₃ : c = '['
  · rw [if_neg h₁, if_neg h₂, if_pos h₃, h₃]
    exact readBracket_eq_ok
  rw [if_neg h₁, if_neg h₂, if_neg h₃]
  constructor
  · intro h
    cases h
    exact .char h₁ h₂ h₃
  · intro h
    cases h with
    | char => rfl
    | one => exact absurd rfl h₁
    | run => exact absurd rfl h₂
    | last => exact absurd rfl h₂
    | deep => exact absurd rfl h₂
    | bracket => exact absurd rfl h₃
    | negated => exact absurd rfl h₃

theorem Reads.text_append (h : Reads before s item rest) : item.text ++ rest = s := by
  cases s with
  | nil => cases h
  | cons c s =>
    have hr : read before 0 c s = .ok (item, rest) := read_eq_ok.2 h
    exact text_append_of_read hr

/-! ### Whole sources -/

/-- A source as a row of items. -/
inductive Row : Option Char → Text → List Item → Prop where
  | nil {before : Option Char} : Row before [] []
  | cons {before : Option Char} {s rest : Text} {item : Item} {more : List Item} :
    Reads before s item rest → Row item.text.getLast? rest more → Row before s (item :: more)

theorem readAll_eq_ok {items : List Item} :
    readAll before pos s = .ok items ↔ Row before s items := by
  induction items generalizing before pos s with
  | nil =>
    cases s with
    | nil => exact ⟨fun _ => .nil, fun _ => readAll_nil before pos⟩
    | cons c s =>
      refine ⟨fun h => ?_, nofun⟩
      obtain ⟨_, _, _, -, -, he⟩ := readAll_cons.1 h
      cases he
  | cons item more ih =>
    cases s with
    | nil =>
      refine ⟨fun h => ?_, fun h => ?_⟩
      · rw [readAll_nil] at h
        cases h
      · cases h with
        | cons h _ => cases h
    | cons c s =>
      rw [readAll_cons]
      constructor
      · intro hq
        obtain ⟨_, rest, _, hr, hm, he⟩ := hq
        cases he
        exact .cons (read_eq_ok.1 hr) (ih.1 hm)
      · intro h
        cases h with
        | cons hr hm => exact ⟨item, _, more, read_eq_ok.2 hr, ih.2 hm, rfl⟩

end PathGlob.Item
