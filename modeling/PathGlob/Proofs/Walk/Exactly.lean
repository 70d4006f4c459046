import PathGlob.Proofs.Path
import PathGlob.Walk.Event

/-! Findings that are each of certain paths once and nothing else.

The paths are said by the names below one path. What holds of findings below each of
several names holds of all of them together (`Exactly.flatMap`), since names that start
differently are different. -/
namespace PathGlob

namespace Finding
variable {p : Path} {S T : List Text → Prop} {fs gs : List Finding}

theorem paths_append (fs gs : List Finding) : paths (fs ++ gs) = paths fs ++ paths gs := by
  rw [paths, List.filter_append, List.map_append, paths, paths]

/-- The findings are successes, and their paths are those with such names below a path,
each once. -/
structure Exactly (p : Path) (S : List Text → Prop) (fs : List Finding) : Prop where
  all_success : ∀ f ∈ fs, f.isSuccess = true
  nodup : (paths fs).Nodup
  mem_iff : ∀ q, q ∈ paths fs ↔ ∃ names, S names ∧ q = p.below names

theorem Exactly.congr (h : Exactly p S fs) (hst : ∀ names, S names ↔ T names) : Exactly p T fs :=
  ⟨h.all_success, h.nodup, fun q => (h.mem_iff q).trans (by simp only [hst])⟩

theorem Exactly.nil (h : ∀ names, ¬ S names) : Exactly p S [] := by
  refine ⟨nofun, .nil, fun q => ⟨nofun, ?_⟩⟩
  intro hq
  obtain ⟨names, hs, -⟩ := hq
  exact absurd hs (h names)

/-- The path itself, found once. -/
theorem Exactly.self : Exactly p (· = []) [success p] := by
  have hpaths : paths [success p] = [p] := rfl
  refine ⟨List.forall_mem_singleton.2 rfl, ?_, fun q => ?_⟩
  · rw [hpaths]
    exact List.pairwise_singleton _ p
  · rw [hpaths, List.mem_singleton]
    constructor
    · exact fun hq => ⟨[], rfl, hq.trans p.below_nil.symm⟩
    · intro h
      obtain ⟨_, rfl, hq⟩ := h
      exact hq.trans p.below_nil

theorem Exactly.append (h : Exactly p S fs) (h' : Exactly p T gs)
    (hd : ∀ names, S names → ¬ T names) : Exactly p (fun names => S names ∨ T names) (fs ++ gs) := by
  refine ⟨List.forall_mem_append.2 ⟨h.all_success, h'.all_success⟩, ?_, fun q => ?_⟩
  · rw [paths_append]
    refine List.nodup_append.2 ⟨h.nodup, h'.nodup, fun q hq q' hq' he => ?_⟩
    obtain ⟨names, hs, rfl⟩ := (h.mem_iff q).1 hq
    obtain ⟨names', ht, rfl⟩ := (h'.mem_iff q').1 hq'
    obtain rfl := Path.below_inj.1 he
    exact hd names hs ht
  · rw [paths_append, List.mem_append, h.mem_iff, h'.mem_iff]
    constructor
    · intro hw
      rcases hw with ⟨names, hs, rfl⟩ | ⟨names, ht, rfl⟩
      · exact ⟨names, .inl hs, rfl⟩
      · exact ⟨names, .inr ht, rfl⟩
    · intro hw
      obtain ⟨names, hs | ht, rfl⟩ := hw
      · exact .inl ⟨names, hs, rfl⟩
      · exact .inr ⟨names, ht, rfl⟩

/-- What is found below a name is found below the path that the name is below. -/
theorem Exactly.down {n : Text} (h : Exactly (p.below [n]) S fs) :
    Exactly p (fun names => ∃ rest, names = n :: rest ∧ S rest) fs := by
  refine ⟨h.all_success, h.nodup, fun q => (h.mem_iff q).trans ⟨?_, ?_⟩⟩
  · intro hq
    obtain ⟨rest, hs, rfl⟩ := hq
    exact ⟨n :: rest, ⟨rest, rfl, hs⟩, p.below_below [n] rest⟩
  · intro hq
    obtain ⟨_, ⟨rest, rfl, hs⟩, rfl⟩ := hq
    exact ⟨rest, hs, (p.below_below [n] rest).symm⟩

/-- What is found below each of different names is found below the path. -/
theorem Exactly.flatMap {ns : List Text} {S : Text → List Text → Prop} {f : Text → List Finding}
    (hns : ns.Nodup) (h : ∀ n ∈ ns, Exactly (p.below [n]) (S n) (f n)) :
    Exactly p (fun names => ∃ n rest, names = n :: rest ∧ n ∈ ns ∧ S n rest) (ns.flatMap f) := by
  induction ns with
  | nil => exact .nil fun names ⟨n, rest, _, hn, _⟩ => nomatch hn
  | cons n ns ih =>
    obtain ⟨hn, hns⟩ := List.nodup_cons.1 hns
    obtain ⟨hfirst, hrest⟩ := List.forall_mem_cons.1 h
    rw [List.flatMap_cons]
    refine (hfirst.down.append (ih hns hrest) ?_).congr fun names => ?_
    · intro _ hq hw
      obtain ⟨rest, rfl, -⟩ := hq
      obtain ⟨m, rest', he, hm, -⟩ := hw
      obtain ⟨rfl, -⟩ := List.cons.inj he
      exact hn hm
    · constructor
      · intro hq
        rcases hq with ⟨rest, rfl, hs⟩ | ⟨m, rest, rfl, hm, hs⟩
        · exact ⟨n, rest, rfl, List.mem_cons_self, hs⟩
        · exact ⟨m, rest, rfl, List.mem_cons_of_mem _ hm, hs⟩
      · intro hq
        obtain ⟨m, rest, rfl, hm, hs⟩ := hq
        rcases List.mem_cons.1 hm with rfl | hm
        · exact .inl ⟨rest, rfl, hs⟩
        · exact .inr ⟨m, rest, rfl, hm, hs⟩

end Finding
end PathGlob
