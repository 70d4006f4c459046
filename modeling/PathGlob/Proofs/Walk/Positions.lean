import Mathlib.Data.List.Induction
import PathGlob.Proofs.Walk.Sharing

/-! What a live position says about the names so far.

A position is live exactly if the components before it share the names, or share them
together with a recursive component that stands at the position and may go on taking names
(`mem_after_iff`). One name more moves a position by one component at most, and what shares
a row of names shares the row without its last (`Splits.of_concat`). So the set of positions
is empty only where no row of components from the first on shares the names (`after_iff`). -/
namespace PathGlob

namespace Splits
variable {o : Options} {cs ds : List Pattern} {c : Pattern} {names more : List Text} {name : Text}

/-- Components behind others share the names behind theirs. -/
theorem append (h : Splits o cs names) (h' : Splits o ds more) :
    Splits o (cs ++ ds) (names ++ more) := by
  induction h with
  | nil => exact h'
  | plain hr hcov _ ih => exact .plain hr hcov ih
  | leave hr _ ih => exact .leave hr ih
  | more hr hh _ ih => exact .more hr hh ih

/-- Recursive components behind others need no names. -/
theorem append_recursive (h : Splits o cs names) (hr : ∀ d ∈ ds, d.isRecursive = true) :
    Splits o (cs ++ ds) names := by
  rw [← List.append_nil names]
  exact h.append (nil_iff.2 hr)

/-- A plain component at the end takes one name more. -/
theorem concat_plain (h : Splits o cs names) (hr : c.isRecursive = false)
    (hcov : c.covers o name = true) : Splits o (cs ++ [c]) (names ++ [name]) :=
  h.append (.plain hr hcov .nil)

/-- A recursive component at the end goes on taking names. -/
theorem concat_recursive (h : Splits o (cs ++ [c]) names) (hr : c.isRecursive = true)
    (hh : (o.literalLeadingDot && isHidden name) = false) :
    Splits o (cs ++ [c]) (names ++ [name]) := by
  generalize hds : cs ++ [c] = ds at h
  induction h generalizing cs with
  | nil => simp at hds
  | plain hp hcov hs ih =>
    cases cs with
    | nil =>
      obtain ⟨rfl, -⟩ := List.cons.inj hds
      rw [hr] at hp
      cases hp
    | cons d cs =>
      obtain ⟨rfl, htail⟩ := List.cons.inj hds
      exact .plain hp hcov (ih htail)
  | leave hp hs ih =>
    cases cs with
    | nil =>
      obtain ⟨rfl, rfl⟩ := List.cons.inj hds
      cases hs
      exact .more hr hh (.leave hr .nil)
    | cons d cs =>
      obtain ⟨rfl, htail⟩ := List.cons.inj hds
      exact .leave hp (ih htail)
  | more hp hhid _ ih => exact .more hp hhid (ih hds)

/-- The last name goes to a component behind which only recursive ones stand. -/
theorem of_concat (h : Splits o cs (names ++ [name])) :
    ∃ front c back, cs = front ++ c :: back ∧ (∀ d ∈ back, d.isRecursive = true) ∧
      (c.isRecursive = false ∧ c.covers o name = true ∧ Splits o front names ∨
        c.isRecursive = true ∧ (o.literalLeadingDot && isHidden name) = false ∧
          Splits o (front ++ [c]) names) := by
  generalize hn : names ++ [name] = all at h
  induction h generalizing names with
  | nil => simp at hn
  | @plain c cs _ _ hr hcov hs ih =>
    cases names with
    | nil =>
      obtain ⟨rfl, rfl⟩ := List.cons.inj hn
      exact ⟨[], c, cs, rfl, nil_iff.1 hs, .inl ⟨hr, hcov, .nil⟩⟩
    | cons first names =>
      obtain ⟨rfl, htail⟩ := List.cons.inj hn
      obtain ⟨front, d, back, rfl, hback, hlast⟩ := ih htail
      refine ⟨c :: front, d, back, rfl, hback, hlast.imp ?_ ?_⟩
      · exact fun ⟨hp, hd, hf⟩ => ⟨hp, hd, .plain hr hcov hf⟩
      · exact fun ⟨hp, hd, hf⟩ => ⟨hp, hd, .plain hr hcov hf⟩
  | @leave c cs _ hr _ ih =>
    obtain ⟨front, d, back, rfl, hback, hlast⟩ := ih hn
    refine ⟨c :: front, d, back, rfl, hback, hlast.imp ?_ ?_⟩
    · exact fun ⟨hp, hd, hf⟩ => ⟨hp, hd, .leave hr hf⟩
    · exact fun ⟨hp, hd, hf⟩ => ⟨hp, hd, .leave hr hf⟩
  | @more c cs _ _ hr hh hs ih =>
    cases names with
    | nil =>
      obtain ⟨rfl, rfl⟩ := List.cons.inj hn
      obtain ⟨-, hcs⟩ := List.forall_mem_cons.1 (nil_iff.1 hs)
      exact ⟨[], c, cs, rfl, hcs, .inr ⟨hr, hh, .leave hr .nil⟩⟩
    | cons first names =>
      obtain ⟨rfl, htail⟩ := List.cons.inj hn
      obtain ⟨front, d, back, he, hback, hlast⟩ := ih htail
      refine ⟨front, d, back, he, hback, ?_⟩
      -- The first component goes on, so it is in the front or takes the last name itself.
      cases front with
      | nil =>
        obtain ⟨rfl, rfl⟩ := List.cons.inj he
        rcases hlast with ⟨hp, -⟩ | ⟨-, hd, hf⟩
        · rw [hr] at hp
          cases hp
        · exact .inr ⟨hr, hd, .more hr hh hf⟩
      | cons c front =>
        obtain ⟨rfl, rfl⟩ := List.cons.inj he
        refine hlast.imp ?_ ?_
        · exact fun ⟨hp, hd, hf⟩ => ⟨hp, hd, .more hr hh hf⟩
        · exact fun ⟨hp, hd, hf⟩ => ⟨hp, hd, .more hr hh hf⟩

end Splits

namespace Live
variable (o : Options) (cs : List Pattern)

/-- The components before a position share the names, or do so together with the recursive
component that stands there. -/
def Shares (names : List Text) (j : Nat) : Prop :=
  Splits o (cs.take j) names ∨
    ∃ c, cs[j]? = some c ∧ c.isRecursive = true ∧ Splits o (cs.take (j + 1)) names

variable {o cs} {names : List Text} {name : Text} {c : Pattern} {i j k : Nat}

/-- A recursive component has a part in what is shared at its position. -/
theorem shares_recursive_iff (hc : cs[i]? = some c) (hr : c.isRecursive = true) :
    Shares o cs names i ↔ Splits o (cs.take (i + 1)) names := by
  constructor
  · intro h
    rcases h with h | ⟨-, -, -, h⟩
    · rw [take_succ_of_getElem? hc]
      exact h.append_recursive (List.forall_mem_singleton.2 hr)
    · exact h
  · exact fun h => .inr ⟨c, hc, hr, h⟩

theorem shares_plain_iff (hc : cs[i]? = some c) (hr : c.isRecursive = false) :
    Shares o cs names i ↔ Splits o (cs.take i) names := by
  refine ⟨fun h => h.resolve_right ?_, .inl⟩
  intro hq
  obtain ⟨d, hd, hrd, -⟩ := hq
  obtain rfl := Option.some.inj (hc.symm.trans hd)
  rw [hr] at hrd
  cases hrd

theorem splits_take_of_skips (hs : skips cs i j = true) (h : Splits o (cs.take i) names) :
    Splits o (cs.take j) names := by
  simp only [skips, Bool.and_eq_true, decide_eq_true_eq, List.all_eq_true] at hs
  have hcat : cs.take i ++ (cs.take j).drop i = cs.take j := by
    rw [← Nat.min_eq_left hs.1, ← List.take_take, Nat.min_eq_left hs.1, List.take_append_drop]
  rw [← hcat]
  exact h.append_recursive hs.2

/-- What is shared at a position is shared at those that are reached from it without a name. -/
theorem shares_of_skips (hj : j ≤ cs.length) (hs : skips cs i j = true)
    (h : Shares o cs names i) : Shares o cs names j := by
  obtain ⟨hij, hr⟩ := (skips_iff cs).1 hs
  rcases Nat.eq_or_lt_of_le hij with rfl | hlt
  · exact h
  · have hc := List.getElem?_eq_getElem (Nat.lt_of_lt_of_le hlt hj)
    have hrest : skips cs (i + 1) j = true :=
      (skips_iff cs).2 ⟨hlt, fun n d hn => hr n d (Nat.le_of_succ_le hn)⟩
    have hsucc := (shares_recursive_iff hc (hr i _ (Nat.le_refl i) hlt hc)).1 h
    exact .inl (splits_take_of_skips hrest hsucc)

/-- A name that is taken is shared where it leads to. -/
theorem shares_of_takes (ht : takes o cs name i k = true) (h : Shares o cs names i) :
    Shares o cs (names ++ [name]) k := by
  obtain ⟨c, hc, ⟨hr, rfl, hh⟩ | ⟨hr, rfl, hcov⟩⟩ := (takes_iff o cs).1 ht
  · rw [shares_recursive_iff hc hr, take_succ_of_getElem? hc] at h ⊢
    exact h.concat_recursive hr hh
  · rw [shares_plain_iff hc hr] at h
    refine .inl ?_
    rw [take_succ_of_getElem? hc]
    exact h.concat_plain hr hcov

/-- The last of the names that a front shares was taken at a position in it, and the others
are shared there. -/
theorem exists_takes_of_splits (h : Splits o (cs.take j) (names ++ [name])) :
    ∃ i k, i < j ∧ Shares o cs names i ∧ takes o cs name i k = true ∧ skips cs k j = true := by
  obtain ⟨front, c, back, he, hback, hlast⟩ := h.of_concat
  have hlen : front.length < j := by
    have := congrArg List.length he
    simp only [List.length_take, List.length_append, List.length_cons] at this
    omega
  have hc : cs[front.length]? = some c := by
    rw [← List.getElem?_take_of_lt hlen, he]
    simp
  have hfront : cs.take front.length = front := by
    rw [← Nat.min_eq_left (Nat.le_of_lt hlen), ← List.take_take, he, List.take_left]
  have hsucc : cs.take (front.length + 1) = front ++ [c] := by
    rw [take_succ_of_getElem? hc, hfront]
  have hskips : skips cs (front.length + 1) j = true := by
    have hrest : (cs.take j).drop (front.length + 1) = back := by
      rw [he, List.drop_append, List.drop_eq_nil_of_le (Nat.le_succ _)]
      simp
    simp only [skips, Bool.and_eq_true, decide_eq_true_eq, List.all_eq_true, hrest]
    exact ⟨hlen, hback⟩
  rcases hlast with ⟨hr, hcov, hs⟩ | ⟨hr, hh, hs⟩
  · rw [← hfront, ← shares_plain_iff hc hr] at hs
    exact ⟨_, _, hlen, hs, (takes_iff o cs).2 ⟨c, hc, .inr ⟨hr, rfl, hcov⟩⟩, hskips⟩
  · rw [← hsucc, ← shares_recursive_iff hc hr] at hs
    exact ⟨_, _, hlen, hs, (takes_iff o cs).2 ⟨c, hc, .inl ⟨hr, rfl, hh⟩⟩,
      skips_trans cs (skips_succ cs hc hr) hskips⟩

/-- The last of the names that are shared at a position was taken and led there. -/
theorem exists_takes (h : Shares o cs (names ++ [name]) j) :
    ∃ i k, Shares o cs names i ∧ takes o cs name i k = true ∧ skips cs k j = true := by
  rcases h with h | ⟨c, hc, hr, h⟩
  · obtain ⟨i, k, -, hs⟩ := exists_takes_of_splits h
    exact ⟨i, k, hs⟩
  · obtain ⟨i, k, hi, hs, ht, hskips⟩ := exists_takes_of_splits h
    -- The recursive component at the position keeps what it takes, so it is not gone by.
    have hk : k ≤ j := by
      obtain ⟨d, hd, ⟨-, rfl, -⟩ | ⟨hp, rfl, -⟩⟩ := (takes_iff o cs).1 ht
      · exact Nat.le_of_lt_succ hi
      · refine Nat.lt_of_le_of_ne (Nat.le_of_lt_succ hi) fun hq => ?_
        rw [hq, hc] at hd
        rw [← Option.some.inj hd, hr] at hp
        cases hp
    refine ⟨i, k, hs, ht, (skips_iff cs).2 ⟨hk, fun n d hn hlt => ?_⟩⟩
    exact ((skips_iff cs).1 hskips).2 n d hn (Nat.lt_succ_of_lt hlt)

/-- Without a name, what is shared is reached. -/
theorem shares_nil_iff : Shares o cs [] j ↔ skips cs 0 j = true := by
  simp only [Shares, Splits.nil_iff, skips, Nat.zero_le, decide_true, Bool.true_and,
    List.drop_zero, List.all_eq_true]
  refine ⟨fun h => h.elim id fun hq c hc => ?_, .inl⟩
  obtain ⟨_, _, _, hall⟩ := hq
  exact hall c (List.take_subset_take_left cs (Nat.le_succ j) hc)

theorem le_length_of_takes (h : takes o cs name i k = true) : k ≤ cs.length := by
  obtain ⟨c, hc, ⟨-, rfl, -⟩ | ⟨-, rfl, -⟩⟩ := (takes_iff o cs).1 h
  · exact Nat.le_of_lt (List.getElem?_eq_some_iff.1 hc).1
  · exact (List.getElem?_eq_some_iff.1 hc).1

theorem after_concat (names : List Text) (name : Text) :
    after o cs (names ++ [name]) = advance o cs name (after o cs names) := by
  rw [after, List.foldl_append]
  rfl

/-- **A position is live exactly if the names are shared there.** -/
theorem mem_after_iff : j ∈ after o cs names ↔ j ≤ cs.length ∧ Shares o cs names j := by
  induction names using List.reverseRecOn generalizing j with
  | nil =>
    rw [shares_nil_iff]
    show j ∈ closure cs [0] ↔ _
    simp only [mem_closure, List.mem_singleton, exists_eq_left]
  | append_singleton names name ih =>
    rw [after_concat, mem_advance]
    refine and_congr_right fun hj => ?_
    constructor
    · intro h
      obtain ⟨k, -, ⟨i, hi, ht⟩, hs⟩ := h
      exact shares_of_skips hj hs (shares_of_takes ht (ih.1 hi).2)
    · intro h
      obtain ⟨i, k, hi, ht, hs⟩ := exists_takes h
      obtain ⟨c, hc, -⟩ := (takes_iff o cs).1 ht
      have hlt := (List.getElem?_eq_some_iff.1 hc).1
      exact ⟨k, le_length_of_takes ht, ⟨i, ih.2 ⟨Nat.le_of_lt hlt, hi⟩, ht⟩, hs⟩

variable (o cs names)

/-- **The positions after a way of names say which components may have taken it.** The last
position is among them exactly if all components together share the names, and there is none
exactly if no row of components from the first on does. A recursive component that has taken
some of the names is at its position still, and may take more. -/
theorem after_iff :
    (cs.length ∈ after o cs names ↔ Splits o cs names) ∧
      (after o cs names = [] ↔ ∀ k ≤ cs.length, ¬ Splits o (cs.take k) names) ∧
      ∀ j, j ∈ after o cs names ↔ j ≤ cs.length ∧ (Splits o (cs.take j) names ∨
        ∃ c, cs[j]? = some c ∧ c.isRecursive = true ∧ Splits o (cs.take (j + 1)) names) := by
  refine ⟨?_, ?_, fun j => mem_after_iff⟩
  · rw [mem_after_iff, Shares]
    simp
  · rw [List.eq_nil_iff_forall_not_mem]
    constructor
    · exact fun h k hk hs => h k (mem_after_iff.2 ⟨hk, .inl hs⟩)
    · intro h j hj
      obtain ⟨hle, hs | ⟨c, hc, -, hs⟩⟩ := mem_after_iff.1 hj
      · exact h j hle hs
      · exact h (j + 1) (List.getElem?_eq_some_iff.1 hc).1 hs

end Live
end PathGlob
