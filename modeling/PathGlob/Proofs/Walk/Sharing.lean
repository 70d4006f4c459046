import Mathlib.Order.Bounds.Basic
import PathGlob.Proofs.Lists
import PathGlob.Walk.Language

/-! Live positions tell whether names can be shared out among the components.

A position is live when the components before it may have used up the names so far.
So the names to come lead from a live position to the end exactly if the components
behind that position can share them (`isFinal_foldl_iff`), and the names of a whole way
do exactly if all components can (`isFinal_after_iff`). -/
namespace PathGlob

theorem Splits.nil_iff {o : Options} {cs : List Pattern} :
    Splits o cs [] ↔ ∀ c ∈ cs, c.isRecursive = true := by
  constructor
  · intro h
    generalize hn : ([] : List Text) = names at h
    induction h with
    | nil => simp
    | plain => cases hn
    | leave hc _ ih => exact List.forall_mem_cons.2 ⟨hc, ih hn⟩
    | more => cases hn
  · intro h
    induction cs with
    | nil => exact .nil
    | cons c cs ih => exact .leave (h c (List.mem_cons_self ..)) (ih (List.forall_mem_cons.1 h).2)

namespace Live
variable (o : Options) (cs : List Pattern)

/-! ### Positions reached without a name -/

/-- Only recursive components are gone by. -/
theorem skips_iff {i j : Nat} : skips cs i j = true ↔
    i ≤ j ∧ ∀ n c, i ≤ n → n < j → cs[n]? = some c → c.isRecursive = true := by
  simp only [skips, Bool.and_eq_true, decide_eq_true_eq, List.all_eq_true]
  refine and_congr_right fun _ => ⟨fun h n c hi hj hc => ?_, fun h c hc => ?_⟩
  · refine h c (List.mem_iff_getElem?.2 ⟨n - i, ?_⟩)
    rw [List.getElem?_drop, List.getElem?_take, if_pos (by omega)]
    rwa [Nat.add_sub_cancel' hi]
  · obtain ⟨n, hn⟩ := List.mem_iff_getElem?.1 hc
    rw [List.getElem?_drop, List.getElem?_take] at hn
    split at hn
    · exact h (i + n) c (Nat.le_add_right ..) ‹_› hn
    · cases hn

theorem skips_self (i : Nat) : skips cs i i = true :=
  (skips_iff cs).2 ⟨Nat.le_refl i, fun _ _ _ _ => by omega⟩

theorem skips_trans {i j k : Nat} (h : skips cs i j = true) (h' : skips cs j k = true) :
    skips cs i k = true := by
  rw [skips_iff] at h h' ⊢
  refine ⟨Nat.le_trans h.1 h'.1, fun n c hi hk hc => ?_⟩
  by_cases hj : n < j
  · exact h.2 n c hi hj hc
  · exact h'.2 n c (Nat.le_of_not_lt hj) hk hc

theorem skips_succ {i : Nat} {c : Pattern} (hc : cs[i]? = some c) (hr : c.isRecursive = true) :
    skips cs i (i + 1) = true := by
  refine (skips_iff cs).2 ⟨Nat.le_succ i, fun n d hi hn hd => ?_⟩
  obtain rfl : n = i := by omega
  rw [hc] at hd
  rwa [← Option.some.inj hd]

/-- Whether every position reached without a name is live as well. -/
def Closed (live : Live) : Prop := ∀ i ∈ live, ∀ j ≤ cs.length, skips cs i j = true → j ∈ live

theorem closed_closure (live : Live) : Closed cs (closure cs live) := by
  intro i hi j hj hs
  obtain ⟨-, k, hk, hki⟩ := (mem_closure cs).1 hi
  exact (mem_closure cs).2 ⟨hj, k, hk, skips_trans cs hki hs⟩

/-- The positions given are in the set, and with that of a recursive component the one
behind it. -/
structure Holds (live : Live) (s : Set Nat) : Prop where
  given : ∀ i ∈ live, i ∈ s
  behind : ∀ i ∈ s, ∀ c, cs[i]? = some c → c.isRecursive = true → i + 1 ∈ s

variable {cs} in
/-- A set with the positions behind recursive components has all that are reached without
a name. -/
theorem Holds.mem_of_skips {live : Live} {s : Set Nat} (h : Holds cs live s) {i j : Nat}
    (hi : i ∈ s) (hj : j ≤ cs.length) (hs : skips cs i j = true) : j ∈ s := by
  obtain ⟨hij, hr⟩ := (skips_iff cs).1 hs
  clear hs
  induction j, hij using Nat.le_induction with
  | base => exact hi
  | succ j hij ih =>
    have hc := List.getElem?_eq_getElem hj
    have hlast : j ∈ s := ih (Nat.le_of_lt hj) fun n c hn hlt => hr n c hn (Nat.lt_succ_of_lt hlt)
    exact h.behind j hlast _ hc (hr j _ hij (Nat.lt_succ_self j) hc)

/-- **The positions reached without a name are the least set that has those given and, with
that of a recursive component, the one behind it.** Adding the positions behind one at a
time, in any order, until none is missing ends with this set. -/
theorem isLeast_closure {live : Live} (h : ∀ i ∈ live, i ≤ cs.length) :
    IsLeast {s | Holds cs live s} {j | j ∈ closure cs live} := by
  have hgiven : ∀ i ∈ live, i ∈ closure cs live :=
    fun i hi => (mem_closure cs).2 ⟨h i hi, i, hi, skips_self cs i⟩
  refine ⟨⟨hgiven, fun i hi c hc hr => ?_⟩, fun s hs j hj => ?_⟩
  · have hlt := (List.getElem?_eq_some_iff.1 hc).1
    exact closed_closure cs live i hi (i + 1) hlt (skips_succ cs hc hr)
  · obtain ⟨hle, i, hi, hskips⟩ := (mem_closure cs).1 hj
    exact hs.mem_of_skips (hs.given i hi) hle hskips

/-! ### Sharing names -/

theorem splits_of_skips {i j : Nat} {names : List Text} (hs : skips cs i j = true)
    (h : Splits o (cs.drop j) names) : Splits o (cs.drop i) names := by
  obtain ⟨hij, hr⟩ := (skips_iff cs).1 hs
  obtain ⟨n, rfl⟩ := Nat.exists_eq_add_of_le hij
  clear hs hij
  induction n with
  | zero => exact h
  | succ n ih =>
    refine ih ?_ fun m c hi hm => hr m c hi (by omega)
    cases hc : cs[i + n]? with
    | none =>
      have hlen : cs.length ≤ i + n := List.getElem?_eq_none_iff.1 hc
      have hnext : cs.drop (i + (n + 1)) = [] := List.drop_eq_nil_of_le (by omega)
      rwa [List.drop_eq_nil_of_le hlen, ← hnext]
    | some c =>
      rw [(drop_eq_cons).2 ⟨hc, rfl⟩]
      exact .leave (hr (i + n) c (Nat.le_add_right ..) (by omega) hc) h

/-- The first name goes to the first component that is not left out. -/
theorem splits_cons {i : Nat} {name : Text} {names : List Text}
    (h : Splits o (cs.drop i) (name :: names)) :
    ∃ m k, skips cs i m = true ∧ takes o cs name m k = true ∧ m < cs.length ∧ k ≤ cs.length ∧
      Splits o (cs.drop k) names := by
  generalize hd : cs.drop i = ds at h
  generalize hn : name :: names = all at h
  induction h generalizing i with
  | nil => cases hn
  | @plain c ds _ _ hc hcov hs =>
    obtain ⟨rfl, rfl⟩ := List.cons.inj hn
    obtain ⟨hi, rfl⟩ := (drop_eq_cons).1 hd
    have hlt := (List.getElem?_eq_some_iff.1 hi).1
    have ht := (takes_iff o cs).2 ⟨c, hi, .inr ⟨hc, rfl, hcov⟩⟩
    exact ⟨i, i + 1, skips_self cs i, ht, hlt, hlt, hs⟩
  | @leave c ds _ hc _ ih =>
    obtain ⟨hi, hds⟩ := (drop_eq_cons).1 hd
    obtain ⟨m, k, hm, h⟩ := ih hds hn
    exact ⟨m, k, skips_trans cs (skips_succ cs hi hc) hm, h⟩
  | @more c ds _ _ hc hh hs =>
    obtain ⟨rfl, rfl⟩ := List.cons.inj hn
    obtain ⟨hi, -⟩ := (drop_eq_cons).1 hd
    have hlt := (List.getElem?_eq_some_iff.1 hi).1
    have ht := (takes_iff o cs).2 ⟨c, hi, .inl ⟨hc, rfl, hh⟩⟩
    exact ⟨i, i, skips_self cs i, ht, hlt, Nat.le_of_lt hlt, hd ▸ hs⟩

theorem splits_of_takes {name : Text} {names : List Text} {i k : Nat}
    (ht : takes o cs name i k = true) (h : Splits o (cs.drop k) names) :
    Splits o (cs.drop i) (name :: names) := by
  obtain ⟨c, hi, ⟨hr, rfl, hh⟩ | ⟨hr, rfl, hcov⟩⟩ := (takes_iff o cs).1 ht
  · rw [(drop_eq_cons).2 ⟨hi, rfl⟩] at h ⊢
    exact .more hr hh h
  · rw [(drop_eq_cons).2 ⟨hi, rfl⟩]
    exact .plain hr hcov h

/-- A name leads on from a live position exactly if the components behind one can
share that name and those to come. -/
theorem exists_mem_advance_iff {live : Live} (hc : Closed cs live) {name : Text}
    {names : List Text} :
    (∃ j ∈ advance o cs name live, Splits o (cs.drop j) names) ↔
      ∃ i ∈ live, Splits o (cs.drop i) (name :: names) := by
  constructor
  · intro h
    obtain ⟨j, hj, hs⟩ := h
    obtain ⟨-, k, -, ⟨i, hi, ht⟩, hkj⟩ := (mem_advance o cs).1 hj
    exact ⟨i, hi, splits_of_takes o cs ht (splits_of_skips o cs hkj hs)⟩
  · intro h
    obtain ⟨i, hi, hs⟩ := h
    obtain ⟨m, k, hm, ht, hmlt, hk, hs'⟩ := splits_cons o cs hs
    have hlive : m ∈ live := hc i hi m (Nat.le_of_lt hmlt) hm
    exact ⟨k, (mem_advance o cs).2 ⟨hk, k, hk, ⟨m, hlive, ht⟩, skips_self cs k⟩, hs'⟩

theorem isFinal_iff {live : Live} (hc : Closed cs live) (hl : ∀ i ∈ live, i ≤ cs.length) :
    live.isFinal cs = true ↔ ∃ i ∈ live, Splits o (cs.drop i) [] := by
  simp only [isFinal, decide_eq_true_eq, Splits.nil_iff]
  constructor
  · exact fun h => ⟨cs.length, h, by simp⟩
  · intro hq
    obtain ⟨i, hi, hr⟩ := hq
    refine hc i hi cs.length (Nat.le_refl _) ((skips_iff cs).2 ⟨hl i hi, fun n c hn _ hcn => ?_⟩)
    refine hr c (List.mem_iff_getElem?.2 ⟨n - i, ?_⟩)
    rwa [List.getElem?_drop, Nat.add_sub_cancel' hn]

/-- The names to come lead to the end exactly if the components behind a live position
can share them. -/
theorem isFinal_foldl_iff {live : Live} (hc : Closed cs live) (hl : ∀ i ∈ live, i ≤ cs.length)
    {names : List Text} :
    (names.foldl (fun live name => advance o cs name live) live).isFinal cs = true ↔
      ∃ i ∈ live, Splits o (cs.drop i) names := by
  induction names generalizing live with
  | nil => exact isFinal_iff o cs hc hl
  | cons name names ih =>
    rw [List.foldl_cons, ← exists_mem_advance_iff o cs hc]
    exact ih (closed_closure cs _) fun i hi => ((mem_advance o cs).1 hi).1

theorem isFinal_after_iff {names : List Text} :
    (after o cs names).isFinal cs = true ↔ Splits o cs names := by
  have hc : Closed cs (start cs) := closed_closure cs [0]
  have hl : ∀ i ∈ start cs, i ≤ cs.length := fun i hi => ((mem_closure cs).1 hi).1
  rw [after, isFinal_foldl_iff o cs hc hl]
  constructor
  · intro h
    obtain ⟨i, hi, hs⟩ := h
    obtain ⟨-, j, hj, hji⟩ := (mem_closure cs).1 hi
    obtain rfl : j = 0 := by simpa using hj
    exact splits_of_skips o cs hji hs
  · exact fun hs => ⟨0, (mem_closure cs).2 ⟨Nat.zero_le _, 0, by simp, skips_self cs 0⟩, hs⟩

end Live
end PathGlob
