import Mathlib.Data.List.DropRight
import Mathlib.Data.List.Forall2

/-! Lists of whatever kind.

Related lists answer alike what is asked of related members, and so they are parted at the
same place (`forall₂_span`). The end of a list that has a property goes with the member
before it (`rdropWhile_cons`). Where keys are different, all that comes of a list of pairs
for one key comes of one pair (`flatMap_lookup`). -/
namespace PathGlob
variable {α β γ : Type}

/-! ### Related lists -/

section
variable {r : α → β → Prop} {as : List α} {bs : List β}

/-- What holds of related members alike is told alike of the lists. -/
theorem map_eq_of_forall₂ {f : α → γ} {g : β → γ} (h : List.Forall₂ r as bs)
    (hfg : ∀ a b, r a b → f a = g b) : as.map f = bs.map g := by
  rw [← List.forall₂_eq_eq_eq, List.forall₂_map_left_iff, List.forall₂_map_right_iff]
  exact h.imp hfg

/-- What is asked of related members alike parts both lists at the same place. -/
theorem forall₂_span {f : α → Bool} {g : β → Bool} (h : List.Forall₂ r as bs)
    (hfg : ∀ a b, r a b → f a = g b) :
    List.Forall₂ r (as.takeWhile f) (bs.takeWhile g) ∧
      List.Forall₂ r (as.dropWhile f) (bs.dropWhile g) := by
  induction h with
  | nil => exact ⟨.nil, .nil⟩
  | @cons a b as bs hab hmore ih =>
    rw [List.takeWhile_cons, List.takeWhile_cons, List.dropWhile_cons, List.dropWhile_cons,
      ← hfg a b hab]
    split
    · exact ⟨.cons hab ih.1, ih.2⟩
    · exact ⟨.nil, .cons hab hmore⟩

end

/-! ### Places in a list -/

theorem drop_eq_cons {a : α} {as rest : List α} {i : Nat} :
    as.drop i = a :: rest ↔ as[i]? = some a ∧ as.drop (i + 1) = rest := by
  constructor
  · intro h
    refine ⟨?_, ?_⟩
    · rw [← List.head?_drop, h]
      rfl
    · rw [← List.drop_drop, h]
      rfl
  · intro hq
    obtain ⟨h, rfl⟩ := hq
    obtain ⟨hlt, rfl⟩ := List.getElem?_eq_some_iff.1 h
    exact List.drop_eq_getElem_cons hlt

theorem take_succ_of_getElem? {a : α} {as : List α} {i : Nat} (h : as[i]? = some a) :
    as.take (i + 1) = as.take i ++ [a] := by
  rw [List.take_add_one, h, Option.toList_some]

/-! ### The end of a list -/

section
variable {p : α → Bool} {a : α} {as : List α}

/-- A member goes with the end of the list if all behind it do and it has the property. -/
theorem rdropWhile_cons : (a :: as).rdropWhile p =
    if p a && (as.rdropWhile p).isEmpty then [] else a :: as.rdropWhile p := by
  rw [List.rdropWhile, List.rdropWhile, List.reverse_cons, List.dropWhile_append,
    List.isEmpty_reverse]
  cases hrest : as.reverse.dropWhile p with
  | nil => cases hp : p a <;> simp [hp]
  | cons b rest => simp

theorem rdropWhile_map {f : α → β} {q : β → Bool} (h : ∀ a ∈ as, q (f a) = p a) :
    (as.map f).rdropWhile q = (as.rdropWhile p).map f := by
  induction as with
  | nil => rfl
  | cons a as ih =>
    obtain ⟨ha, has⟩ := List.forall_mem_cons.1 h
    rw [List.map_cons, rdropWhile_cons, rdropWhile_cons, ih has, ha, List.isEmpty_map]
    split <;> rfl

end

/-! ### What comes of a list -/

/-- Duplicates are gone once they are erased. -/
theorem nodup_eraseDups [BEq α] [LawfulBEq α] (as : List α) : as.eraseDups.Nodup := by
  induction hlen : as.length using Nat.strongRecOn generalizing as with
  | ind len ih =>
    cases as with
    | nil => exact .nil
    | cons a as =>
      rw [List.eraseDups_cons, List.nodup_cons]
      have hle := List.length_filter_le (fun b => !b == a) as
      rw [List.length_cons] at hlen
      exact ⟨by simp [List.mem_eraseDups], ih _ (by omega) _ rfl⟩

/-- What comes to nothing may be left out. -/
theorem flatMap_filter {as : List α} {f : α → List β} {u : α → Bool}
    (h : ∀ a ∈ as, u a = false → f a = []) : (as.filter u).flatMap f = as.flatMap f := by
  induction as with
  | nil => rfl
  | cons a as ih =>
    obtain ⟨ha, has⟩ := List.forall_mem_cons.1 h
    cases hu : u a with
    | true => rw [List.filter_cons_of_pos hu, List.flatMap_cons, List.flatMap_cons, ih has]
    | false =>
      rw [List.filter_cons_of_neg (by simp [hu]), List.flatMap_cons, ha hu, ih has, List.nil_append]

/-- Where keys are different, at most one pair has a given key. -/
theorem flatMap_lookup [BEq α] [LawfulBEq α] {pairs : List (α × β)} {k : α}
    {f : α × β → List γ} (hnodup : (pairs.map Prod.fst).Nodup)
    (hf : ∀ e ∈ pairs, e.1 ≠ k → f e = []) :
    pairs.flatMap f = ((pairs.lookup k).map fun b => f (k, b)).getD [] := by
  induction pairs with
  | nil => rfl
  | cons first rest ih =>
    obtain ⟨hfirst, hrest⟩ := List.forall_mem_cons.1 hf
    rw [List.map_cons, List.nodup_cons] at hnodup
    rw [List.flatMap_cons, List.lookup_cons]
    by_cases hk : first.1 = k
    · have hnone : ∀ e ∈ rest, f e = [] := fun e he => hrest e he fun hq =>
        hnodup.1 (hk.trans hq.symm ▸ List.mem_map_of_mem he)
      rw [List.flatMap_eq_nil_iff.2 hnone, List.append_nil, beq_iff_eq.2 hk.symm]
      obtain ⟨first, b⟩ := first
      obtain rfl : first = k := hk
      rfl
    · rw [hfirst hk, List.nil_append, ih hnodup.2 hrest, beq_false_of_ne (Ne.symm hk)]

end PathGlob
