import Mathlib.Data.List.Chain
import PathGlob.Pattern.Basic
import PathGlob.Proofs.Pattern.Grammar

/-! Where the recursive wildcard may stand.

`**` fills its component, so among the tokens of a source it is the first or right
behind a separator (`placed_tokens`). Deciding by attempts that stop early is sound for
rows of tokens of this shape only. -/
namespace PathGlob.Token

/-- Every `deep` is right behind a separator, or comes first and `start` says that
a name starts there. -/
def Placed : Bool → List Token → Prop
  | _, [] => True
  | start, t :: ts => (t = deep → start = true) ∧ Placed (t = char '/') ts

theorem Placed.of_start {start : Bool} {ts : List Token} (h : Placed start ts) : Placed true ts := by
  cases ts with
  | nil => trivial
  | cons t ts => exact ⟨fun _ => rfl, h.2⟩

theorem Placed.of_head {start other : Bool} {ts : List Token} (h : Placed start ts)
    (hd : ts.head? ≠ some deep) : Placed other ts := by
  cases ts with
  | nil => trivial
  | cons t ts => exact ⟨fun ht => absurd (congrArg some ht) hd, h.2⟩

theorem Placed.head_ne {ts : List Token} (h : Placed false ts) : ts.head? ≠ some deep := by
  cases ts with
  | nil => simp
  | cons t ts =>
    intro ht
    exact absurd (h.1 (Option.some.inj ht)) Bool.false_ne_true

theorem Placed.isChain {start : Bool} {ts : List Token} (h : Placed start ts) :
    ts.IsChain fun t u => u = deep → t = char '/' := by
  induction ts generalizing start with
  | nil => exact .nil
  | cons t ts ih =>
    refine List.isChain_cons.2 ⟨fun u hu hd => ?_, ih h.2⟩
    cases ts with
    | nil => cases hu
    | cons v ts =>
      cases hu
      exact of_decide_eq_true (h.2.1 hd)

/-! ### Rows of `deep` -/

theorem merged_cons_of_deep {ts : List Token} (h : ts.head? = some deep) :
    merged (deep :: ts) = merged ts := by
  simp [merged, h]

theorem merged_cons {t : Token} {ts : List Token} (h : t = deep → ts.head? ≠ some deep) :
    merged (t :: ts) = t :: merged ts := by
  by_cases ht : t = deep
  · simp [merged, ht, h ht]
  · simp [merged, ht]

/-- A token is left out if it is a `deep` right in front of another, and kept if not. -/
theorem merged_cases (t : Token) (ts : List Token) :
    (∃ us, t = deep ∧ ts = deep :: us ∧ merged (t :: ts) = merged ts) ∨
      (t = deep → ts.head? ≠ some deep) ∧ merged (t :: ts) = t :: merged ts := by
  by_cases hrow : t = deep ∧ ts.head? = some deep
  · obtain ⟨rfl, hd⟩ := hrow
    obtain ⟨us, hus⟩ := List.head?_eq_some_iff.1 hd
    exact .inl ⟨us, rfl, hus, merged_cons_of_deep hd⟩
  · have hkept : t = deep → ts.head? ≠ some deep := fun ht hd => hrow ⟨ht, hd⟩
    exact .inr ⟨hkept, merged_cons hkept⟩

theorem head?_merged (ts : List Token) : (merged ts).head? = ts.head? := by
  induction ts with
  | nil => rfl
  | cons t ts ih =>
    rcases merged_cases t ts with ⟨us, rfl, rfl, hm⟩ | ⟨-, hm⟩
    · rw [hm, ih]
      rfl
    · rw [hm]
      rfl

theorem mem_merged {t : Token} {ts : List Token} : t ∈ merged ts ↔ t ∈ ts := by
  induction ts with
  | nil => rfl
  | cons u ts ih =>
    rcases merged_cases u ts with ⟨us, rfl, rfl, hm⟩ | ⟨-, hm⟩
    · rw [hm, ih]
      simp
    · rw [hm, List.mem_cons, List.mem_cons, ih]

/-- What holds side by side still does where rows of `deep` are one: each has the same first
token behind it. -/
theorem isChain_merged {R : Token → Token → Prop} {ts : List Token} (h : ts.IsChain R) :
    (merged ts).IsChain R := by
  induction ts with
  | nil => exact h
  | cons t ts ih =>
    obtain ⟨hhead, htail⟩ := List.isChain_cons.1 h
    rcases merged_cases t ts with ⟨_, _, _, hm⟩ | ⟨-, hm⟩
    · rw [hm]
      exact ih htail
    · rw [hm, List.isChain_cons, head?_merged]
      exact ⟨hhead, ih htail⟩

/-! ### Tokens of items -/

/-- `**` is read only where a component starts. -/
theorem starts_of_reads {before : Option Char} {s rest : Text} {item : Item}
    (h : Item.Reads before s item rest) (hd : item.token = deep) :
    before.all (· = '/') = true := by
  cases h with
  | last h => exact h
  | deep h => exact h
  | _ => cases hd

theorem last_eq_separator (item : Item) :
    item.text.getLast?.all (· = '/') = true ↔
      item.token = char '/' ∨ item = Item.deep true := by
  cases item with
  | char c => simp [Item.text, Item.token]
  | one => simp [Item.text, Item.token]
  | run => simp [Item.text, Item.token]
  | deep separated => cases separated <;> simp [Item.text, Item.token]
  | bracket negated body =>
    have hlast : (Item.bracket negated body).text.getLast? = some ']' := List.getLast?_concat
    rw [hlast]
    simp [Item.token]

theorem placed_merged {before : Option Char} {s : Text} {items : List Item}
    (h : Item.Row before s items) :
    Placed (before.all (· = '/')) (merged (items.map Item.token)) := by
  induction h with
  | nil => trivial
  | @cons before s rest item more hr _ htail =>
    have hstart : item.token = deep → before.all (· = '/') = true := starts_of_reads hr
    rw [List.map_cons]
    rcases merged_cases item.token (more.map Item.token) with ⟨_, hd, _, hm⟩ | ⟨hkept, hm⟩
    · -- A row of `deep` starts where its first does.
      rw [hm, hstart hd]
      exact htail.of_start
    · rw [hm]
      refine ⟨hstart, ?_⟩
      by_cases hd : item.token = deep
      · apply htail.of_head
        rw [head?_merged]
        exact hkept hd
      · have hlast : item.text.getLast?.all (· = '/') = decide (item.token = char '/') := by
          rw [Bool.eq_iff_iff, last_eq_separator, decide_eq_true_iff]
          apply or_iff_left
          intro hq
          subst hq
          exact hd rfl
        rwa [hlast] at htail

/-- **In a pattern `**` comes first or stands right behind a separator.** -/
theorem placed_tokens (p : Pattern) : Placed true p.tokens := by
  obtain ⟨items, hr, hm⟩ := map_eq_ok.1 p.ofSource_source
  rw [← hm]
  exact placed_merged (Item.readAll_eq_ok.1 hr)

end PathGlob.Token
