import Mathlib.Data.List.Destutter
import Mathlib.Data.List.Forall2
import PathGlob.Pattern.Basic
import PathGlob.Proofs.Pattern.Grammar

/-! What comes of any source: its one reading, or the first item that cannot be completed.

A source that is no row of items has a longest row of items in front (`Front`), and what
stands behind it is the beginning of no item. `Fails` says what is wrong there and where
the error is placed; the cases exclude each other. Together with the rows of items this
settles what comes of every source (`ofSource_row`). -/
namespace PathGlob

namespace Item
variable {before last : Option Char} {pos : Nat} {c : Char} {s rest : Text} {item : Item}
  {items : List Item} {e : PatternError}

/-- What is wrong where no item can be read. The source stands at `pos`, behind `before`. -/
inductive Fails (before : Option Char) (pos : Nat) : Text → PatternError → Prop where
  | starRow {s : Text} : Fails before pos ('*' :: '*' :: '*' :: s) ⟨.starRow, pos + 2⟩
  | startsInside {s : Text} : s.head? ≠ some '*' → before.all (· = '/') = false →
    Fails before pos ('*' :: '*' :: s) ⟨.deepBeside, pos - 1⟩
  | goesOn {c : Char} {s : Text} : c ≠ '*' → before.all (· = '/') = true → c ≠ '/' →
    Fails before pos ('*' :: '*' :: c :: s) ⟨.deepBeside, pos + 2⟩
  | openSet {s : Text} : (∀ item rest, ¬ Reads before ('[' :: s) item rest) →
    Fails before pos ('[' :: s) ⟨.openSet, pos⟩

/-! ### One item -/

theorem error_of_readBracket (h : readBracket pos s = .error e) : e = ⟨.openSet, pos⟩ := by
  have hmembers : ∀ {negated x s}, readMembers negated pos x s = .error e → e = ⟨.openSet, pos⟩ := by
    intro negated x s h
    unfold readMembers at h
    split at h
    · cases h
    · exact (Except.error.inj h).symm
  unfold readBracket at h
  split at h
  · exact (Except.error.inj h).symm
  · split at h
    · split at h
      · exact (Except.error.inj h).symm
      · exact hmembers h
    · exact hmembers h

theorem readBracket_eq_error (before : Option Char) :
    readBracket pos s = .error e ↔
      e = ⟨.openSet, pos⟩ ∧ ∀ item rest, ¬ Reads before ('[' :: s) item rest := by
  constructor
  · intro h
    refine ⟨error_of_readBracket h, fun item rest hr => ?_⟩
    rw [readBracket_eq_ok.2 hr] at h
    cases h
  · intro hq
    obtain ⟨rfl, hnone⟩ := hq
    cases h : readBracket pos s with
    | error e => rw [error_of_readBracket h]
    | ok r => exact absurd (readBracket_eq_ok.1 h) (hnone r.1 r.2)

/-- Two stars are no item where they stand beside another character of their component. -/
theorem readDeep_eq_error (hs : s.head? ≠ some '*') :
    readDeep before pos s = .error e ↔ Fails before pos ('*' :: '*' :: s) e := by
  have hstart : before.any (· ≠ '/') = true ↔ before.all (· = '/') = false := by
    cases before <;> simp
  unfold readDeep
  by_cases hb : before.any (· ≠ '/') = true
  · rw [if_pos hb]
    constructor
    · intro h
      cases h
      exact .startsInside hs (hstart.1 hb)
    · intro h
      cases h with
      | starRow => exact absurd rfl hs
      | startsInside => rfl
      | goesOn _ hall => simp [hstart.1 hb] at hall
  · rw [if_neg hb]
    cases s with
    | nil =>
      refine ⟨nofun, fun h => ?_⟩
      cases h with
      | startsInside _ hall => exact absurd (hstart.2 hall) hb
    | cons c s =>
      by_cases hc : c = '/'
      · simp only [hc, if_true]
        refine ⟨nofun, fun h => ?_⟩
        cases h with
        | startsInside _ hall => exact absurd (hstart.2 hall) hb
        | goesOn _ _ hne => exact absurd rfl hne
      · simp only [hc, if_false]
        constructor
        · intro h
          cases h
          refine .goesOn (fun hq => hs (congrArg some hq)) ?_ hc
          simpa using fun h => hb (hstart.2 h)
        · intro h
          cases h with
          | starRow => exact absurd rfl hs
          | startsInside _ hall => exact absurd (hstart.2 hall) hb
          | goesOn => rfl

theorem readStars_eq_error :
    readStars before pos s = .error e ↔ Fails before pos ('*' :: s) e := by
  unfold readStars
  split
  · constructor
    · intro h
      cases h
      exact .starRow
    · intro h
      cases h with
      | starRow => rfl
      | startsInside hs => exact absurd rfl hs
      | goesOn hc => exact absurd rfl hc
  · rename_i s hs
    refine readDeep_eq_error fun hh => ?_
    cases s with
    | nil => cases hh
    | cons d s => exact hs s (by rw [Option.some.inj hh])
  · rename_i hs
    refine ⟨nofun, fun h => ?_⟩
    cases h with
    | starRow => exact absurd rfl (hs _)
    | startsInside => exact absurd rfl (hs _)
    | goesOn => exact absurd rfl (hs _)

/-- **No item is read off a source exactly when something is wrong where it starts.** -/
theorem read_eq_error : read before pos c s = .error e ↔ Fails before pos (c :: s) e := by
  unfold read
  by_cases h₁ : c = '?'
  · rw [if_pos h₁, h₁]
    exact ⟨nofun, nofun⟩
  by_cases h₂ : c = '*'
  · rw [if_neg h₁, if_pos h₂, h₂]
    exact readStars_eq_error
  by_cases h₃ : c = '['
  · rw [if_neg h₁, if_neg h₂, if_pos h₃, h₃, readBracket_eq_error before]
    constructor
    · intro hq
      rw [hq.1]
      exact .openSet hq.2
    · intro h
      cases h with
      | openSet hnone => exact ⟨rfl, hnone⟩
  rw [if_neg h₁, if_neg h₂, if_neg h₃]
  refine ⟨nofun, fun h => ?_⟩
  cases h with
  | openSet => exact absurd rfl h₃
  | _ => exact absurd rfl h₂

/-! ### Whole sources -/

/-- The items are read off the front of a source; `rest` is left, behind `last`. -/
inductive Front : Option Char → Text → List Item → Option Char → Text → Prop where
  | nil {before : Option Char} {s : Text} : Front before s [] before s
  | cons {before last : Option Char} {s mid rest : Text} {item : Item} {more : List Item} :
    Reads before s item mid → Front item.text.getLast? mid more last rest →
      Front before s (item :: more) last rest

theorem Row.flatMap_text (h : Row before s items) : items.flatMap text = s := by
  induction h with
  | nil => rfl
  | cons hr _ ih => rw [List.flatMap_cons, ih, hr.text_append]

/-- A source is a row of items in one way only. -/
theorem Row.unique {others : List Item} (h : Row before s items) (h' : Row before s others) :
    others = items := by
  have hread : readAll before 0 s = .ok others := readAll_eq_ok.2 h'
  exact Except.ok.inj (hread.symm.trans (readAll_eq_ok.2 h))

theorem readAll_of_front (hf : Front before s items last rest)
    (h : Fails last (pos + (items.flatMap text).length) rest e) :
    readAll before pos s = .error e := by
  induction hf generalizing pos with
  | @nil before s =>
    rw [List.flatMap_nil, List.length_nil, Nat.add_zero] at h
    cases s with
    | nil => cases h
    | cons c s =>
      rw [readAll]
      split
      · rename_i he
        rw [read_eq_error.2 h] at he
        cases he
        rfl
      · rename_i hr
        rw [read_eq_error.2 h] at hr
        cases hr
  | @cons before last s mid rest item more hr _ ih =>
    rw [List.flatMap_cons, List.length_append, ← Nat.add_assoc] at h
    cases s with
    | nil => cases hr
    | cons c s =>
      rw [readAll]
      split
      · rename_i he
        rw [read_eq_ok.2 hr] at he
        cases he
      · rename_i he
        rw [read_eq_ok.2 hr] at he
        cases he
        rw [ih h]
        rfl

theorem front_of_readAll (h : readAll before pos s = .error e) :
    ∃ items last rest, Front before s items last rest ∧
      Fails last (pos + (items.flatMap text).length) rest e := by
  -- What is left behind an item is shorter than the source.
  induction hlen : s.length using Nat.strongRecOn generalizing before pos s with
  | ind len ih =>
    cases s with
    | nil =>
      rw [readAll_nil] at h
      cases h
    | cons c s =>
      rw [readAll] at h
      split at h
      · rename_i he
        cases h
        exact ⟨[], before, c :: s, .nil, read_eq_error.1 he⟩
      · rename_i item mid hr
        cases hm : readAll item.text.getLast? (pos + item.text.length) mid with
        | ok more =>
          rw [hm] at h
          cases h
        | error e' =>
          rw [hm] at h
          cases h
          have hlt : mid.length < len := hlen ▸ length_lt_of_read hr
          obtain ⟨items, last, rest, hf, hfails⟩ := ih _ hlt hm rfl
          refine ⟨item :: items, last, rest, .cons (read_eq_ok.1 hr) hf, ?_⟩
          rw [List.flatMap_cons, List.length_append, ← Nat.add_assoc]
          exact hfails

/-! ### Members of sets -/

/-- The members of a set, from left to right: a span wherever three characters with a dash
in their middle are left, else one character. -/
inductive Members : Text → List Span → Prop where
  | nil : Members [] []
  | span {low high : Char} {s : Text} {ms : List Span} :
    Members s ms → Members (low :: '-' :: high :: s) (⟨low, high⟩ :: ms)
  | single {c : Char} {s : Text} {ms : List Span} : (∀ high rest, s ≠ '-' :: high :: rest) →
    Members s ms → Members (c :: s) (⟨c, c⟩ :: ms)

theorem members_iff {body : Text} {ms : List Span} : Members body ms ↔ spans body = ms := by
  constructor
  · intro h
    induction h with
    | nil => rfl
    | span _ ih => rw [spans, ih]
    | single hs _ ih =>
      rw [spans, ih]
      · rfl
      · intro high rest hq
        exact hs high rest hq
  · intro h
    subst h
    fun_induction spans body with
    | case1 low high rest ih => exact .span ih
    | case2 c rest hs ih => exact .single hs ih
    | case3 => exact .nil

/-- The token that an item gives. -/
inductive Gives : Item → Token → Prop where
  | char {c : Char} : Gives (char c) (.char c)
  | one : Gives one .one
  | run : Gives run .run
  | deep {separated : Bool} : Gives (deep separated) .deep
  | bracket {negated : Bool} {body : Text} {ms : List Span} :
    Members body ms → Gives (bracket negated body) (.bracket ⟨ms, negated⟩)

theorem gives_iff {t : Token} : Gives item t ↔ item.token = t := by
  constructor
  · intro h
    cases h with
    | bracket hms => rw [token, members_iff.1 hms]
    | _ => rfl
  · intro h
    subst h
    cases item with
    | char c => exact .char
    | one => exact .one
    | run => exact .run
    | deep separated => exact .deep
    | bracket negated body => exact .bracket (members_iff.2 rfl)

theorem forall₂_gives_iff {ts : List Token} : List.Forall₂ Gives items ts ↔ items.map token = ts := by
  have hgives : Gives = fun item t => item.token = t := by
    funext item t
    exact propext gives_iff
  rw [hgives, ← List.forall₂_map_left_iff (R := Eq), List.forall₂_eq_eq_eq]

end Item

namespace Token

/-- A `deep` is left out where the last token kept is one. -/
theorem merged_eq_destutter (ts : List Token) :
    merged ts = ts.destutter fun a b => ¬ (a = deep ∧ b = deep) := by
  have hcons : ∀ t ts, merged (t :: ts) = ts.destutter' (fun a b => ¬ (a = deep ∧ b = deep)) t := by
    intro t ts
    induction ts generalizing t with
    | nil => simp [merged]
    | cons u ts ih =>
      rw [List.destutter'_cons, ← ih, ← ih, merged]
      by_cases h : t = deep ∧ u = deep
      · simp [h]
      · rw [if_pos h, if_neg (by simpa using h)]
  cases ts with
  | nil => rfl
  | cons t ts => exact hcons t ts

theorem ofSource_eq_error {source : Text} {e : PatternError} :
    ofSource source = .error e ↔ Item.readAll none 0 source = .error e := map_eq_error

/-- **Every source is a row of items, in one way, and has the tokens that they give, or it has
the error of the first item that cannot be completed.** -/
theorem ofSource_row (source : Text) :
    (∀ ts, ofSource source = .ok ts ↔ ∃ items own, Item.Row none source items ∧
      List.Forall₂ Item.Gives items own ∧
      ts = own.destutter fun a b => ¬ (a = deep ∧ b = deep)) ∧
    (∀ items, Item.Row none source items → items.flatMap Item.text = source ∧
      ∀ others, Item.Row none source others → others = items) ∧
    (∀ item t, Item.Gives item t ↔ item.token = t) ∧
    ∀ e, ofSource source = .error e ↔ ∃ items last rest, Item.Front none source items last rest ∧
      Item.Fails last (items.flatMap Item.text).length rest e := by
  refine ⟨fun ts => ?_, fun items h => ⟨h.flatMap_text, fun others h' => h.unique h'⟩,
    fun item t => Item.gives_iff, fun e => ?_⟩
  · rw [ofSource, map_eq_ok]
    simp only [Item.readAll_eq_ok, merged_eq_destutter, Item.forall₂_gives_iff, exists_and_left,
      exists_eq_left', eq_comm (a := ts)]
  · rw [ofSource_eq_error]
    constructor
    · intro h
      obtain ⟨items, last, rest, hf, hfails⟩ := Item.front_of_readAll h
      rw [Nat.zero_add] at hfails
      exact ⟨items, last, rest, hf, hfails⟩
    · intro h
      obtain ⟨items, last, rest, hf, hfails⟩ := h
      refine Item.readAll_of_front hf ?_
      rwa [Nat.zero_add]

end Token
end PathGlob
