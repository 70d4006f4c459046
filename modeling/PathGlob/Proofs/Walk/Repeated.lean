import Mathlib
import PathGlob.Proofs.Walk.Abreast
import PathGlob.Proofs.Walk.Refused

/-! A recursive component that is written twice.

Where the component at `k` stands twice, a walk has one position more: `k` and `k + 1` are both
what `k` is where it stands once. Either takes any names and stays, and the one is left for the
other without a name, so the two are live together or not at all (`Live.Doubled`). What is pending
is then the same but for the second copy, and that is no plain name, so whether names are looked up
and which ones is the same as well. Both walks keep abreast and nothing is left out
(`events_repeated`). The tokens of the source as a whole have one `**` for a row of them. -/
namespace PathGlob

/-! ### Positions -/

namespace Live
variable {o : Options} {cs cs' : List Pattern} {live live' : Live} {k i j : Nat}

/-- What position `j` is where the component at `k` stands once. -/
def once (k j : Nat) : Nat := if j ≤ k then j else j - 1

/-- The first position that is `i` where the component at `k` stands once. -/
def first (k i : Nat) : Nat := if i ≤ k then i else i + 1

theorem once_cases (k j : Nat) : j ≤ k ∧ once k j = j ∨ k < j ∧ once k j + 1 = j := by
  unfold once
  split <;> omega

theorem first_cases (k i : Nat) : i ≤ k ∧ first k i = i ∨ k < i ∧ first k i = i + 1 := by
  unfold first
  split <;> omega

theorem once_first (k i : Nat) : once k (first k i) = i := by
  have hfirst := first_cases k i
  have honce := once_cases k (first k i)
  omega

/-- The same components, but for the recursive one at `k`, which is there twice. -/
structure Repeats (k : Nat) (cs cs' : List Pattern) : Prop where
  length_eq : cs'.length = cs.length + 1
  getElem?_eq : ∀ j, cs'[j]? = cs[once k j]?
  recursive : ∃ c, cs[k]? = some c ∧ c.isRecursive = true

theorem repeats (pre post : List Pattern) {c : Pattern} (hr : c.isRecursive = true) :
    Repeats pre.length (pre ++ c :: post) (pre ++ c :: c :: post) := by
  refine ⟨by simp [Nat.add_assoc], fun j => ?_, c, by simp, hr⟩
  rcases Nat.lt_or_ge j pre.length with hj | hj
  · rw [once, if_pos (Nat.le_of_lt hj), List.getElem?_append_left hj, List.getElem?_append_left hj]
  · obtain ⟨m, rfl⟩ := Nat.exists_eq_add_of_le hj
    rw [List.getElem?_append_right hj, Nat.add_sub_cancel_left]
    cases m with
    | zero => simp [once]
    | succ m =>
      have honce : once pre.length (pre.length + (m + 1)) = pre.length + m := by
        have hcases := once_cases pre.length (pre.length + (m + 1))
        omega
      rw [honce, List.getElem?_append_right (Nat.le_add_right ..), Nat.add_sub_cancel_left]
      cases m <;> rfl

/-- The live positions of both walks: where the component at `k` stands twice, a position is live
exactly if what it is once is. -/
structure Doubled (k : Nat) (live live' : Live) : Prop where
  mem_iff : ∀ j, j ∈ live' ↔ once k j ∈ live
  sorted : live.Pairwise (· < ·)
  sorted' : live'.Pairwise (· < ·)

namespace Repeats
variable (h : Repeats k cs cs')
include h

theorem lt_length : k < cs.length := by
  obtain ⟨c, hc, -⟩ := h.recursive
  exact (List.getElem?_eq_some_iff.1 hc).1

theorem le_length_iff : j ≤ cs'.length ↔ once k j ≤ cs.length := by
  have hlen := h.length_eq
  have hlt := h.lt_length
  have hj := once_cases k j
  omega

theorem isRecursive {c : Pattern} (hc : cs[k]? = some c) : c.isRecursive = true := by
  obtain ⟨d, hd, hr⟩ := h.recursive
  rwa [Option.some.inj (hc.symm.trans hd)]

theorem ne_of_plain {c : Pattern} (hc : cs[i]? = some c) (hr : c.isRecursive = false) : i ≠ k := by
  rintro rfl
  rw [h.isRecursive hc] at hr
  cases hr

/-- A plain component is not at `k`, so it is followed by what follows it once. -/
theorem once_succ {c : Pattern} (hc : cs'[j]? = some c) (hr : c.isRecursive = false) :
    once k (j + 1) = once k j + 1 := by
  have hne := h.ne_of_plain ((h.getElem?_eq j).symm.trans hc) hr
  have hj := once_cases k j
  have hnext := once_cases k (j + 1)
  omega

theorem first_succ {c : Pattern} (hc : cs[i]? = some c) (hr : c.isRecursive = false) :
    first k (i + 1) = first k i + 1 := by
  have hne := h.ne_of_plain hc hr
  have hi := first_cases k i
  have hnext := first_cases k (i + 1)
  omega

theorem skips_once (hs : skips cs' i j = true) : skips cs (once k i) (once k j) = true := by
  rw [skips_iff] at hs ⊢
  obtain ⟨hij, hall⟩ := hs
  have hi := once_cases k i
  have hj := once_cases k j
  refine ⟨by omega, fun n c hin hnj hc => ?_⟩
  -- the second copy is the one between positions that differ once
  obtain ⟨m, rfl, him, hmj⟩ : ∃ m, once k m = n ∧ i ≤ m ∧ m < j := by
    rcases Nat.lt_or_ge n k with hn | hn
    · exact ⟨n, if_pos (Nat.le_of_lt hn), by omega, by omega⟩
    · exact ⟨n + 1, if_neg (Nat.not_le_of_lt (Nat.lt_succ_of_le hn)), by omega, by omega⟩
  exact hall m c him hmj ((h.getElem?_eq m).trans hc)

theorem skips_first (hs : skips cs i (once k j) = true) : skips cs' (first k i) j = true := by
  rw [skips_iff] at hs ⊢
  obtain ⟨hij, hall⟩ := hs
  have hi := first_cases k i
  have hj := once_cases k j
  refine ⟨by omega, fun m c him hmj hc => ?_⟩
  have hm := once_cases k m
  rw [h.getElem?_eq] at hc
  by_cases hlt : once k m < once k j
  · exact hall _ c (by omega) hlt hc
  · have hk : once k m = k := by omega
    exact h.isRecursive (hk ▸ hc)

theorem takes_once {n : Text} (ht : takes o cs' n i j = true) :
    takes o cs n (once k i) (once k j) = true := by
  rw [takes_iff] at ht ⊢
  obtain ⟨c, hc, ⟨hr, rfl, hdot⟩ | ⟨hr, rfl, hcov⟩⟩ := ht
  · exact ⟨c, (h.getElem?_eq j).symm.trans hc, .inl ⟨hr, rfl, hdot⟩⟩
  · exact ⟨c, (h.getElem?_eq i).symm.trans hc, .inr ⟨hr, h.once_succ hc hr, hcov⟩⟩

theorem takes_first {n : Text} (ht : takes o cs n i j = true) :
    takes o cs' n (first k i) (first k j) = true := by
  rw [takes_iff] at ht ⊢
  have hget : cs'[first k i]? = cs[i]? := by rw [h.getElem?_eq, once_first]
  obtain ⟨c, hc, ⟨hr, rfl, hdot⟩ | ⟨hr, rfl, hcov⟩⟩ := ht
  · exact ⟨c, hget.trans hc, .inl ⟨hr, rfl, hdot⟩⟩
  · exact ⟨c, hget.trans hc, .inr ⟨hr, h.first_succ hc hr, hcov⟩⟩

/-- Positions that lead to each other close to the same ones. -/
theorem doubled_closure (honce : ∀ j ∈ live', once k j ∈ live)
    (hfirst : ∀ i ∈ live, first k i ∈ live') :
    Doubled k (closure cs live) (closure cs' live') := by
  refine ⟨fun j => ?_, sorted_positions _ _, sorted_positions _ _⟩
  rw [mem_closure, mem_closure, h.le_length_iff]
  refine and_congr_right fun _ => ⟨fun hex => ?_, fun hex => ?_⟩
  · obtain ⟨i, hi, hs⟩ := hex
    exact ⟨_, honce i hi, h.skips_once hs⟩
  · obtain ⟨i, hi, hs⟩ := hex
    exact ⟨_, hfirst i hi, h.skips_first hs⟩

theorem doubled_start : Doubled k (start cs) (start cs') := by
  refine h.doubled_closure (fun j hj => ?_) fun i hi => ?_
  · rw [List.mem_singleton.1 hj]
    exact List.mem_singleton.2 (if_pos (Nat.zero_le k))
  · rw [List.mem_singleton.1 hi]
    exact List.mem_singleton.2 (if_pos (Nat.zero_le k))

theorem doubled_advance (hl : Doubled k live live') (n : Text) :
    Doubled k (advance o cs n live) (advance o cs' n live') := by
  have hfirst : ∀ i ∈ live, first k i ∈ live' := fun i hi => by rwa [hl.mem_iff, once_first]
  refine h.doubled_closure (fun j hj => ?_) fun i hi => ?_
  · obtain ⟨hle, hex⟩ := (mem_positions cs').1 hj
    obtain ⟨i, hi, ht⟩ := List.any_eq_true.1 hex
    refine (mem_positions cs).2 ⟨h.le_length_iff.1 hle, List.any_eq_true.2 ?_⟩
    exact ⟨_, (hl.mem_iff i).1 hi, h.takes_once ht⟩
  · obtain ⟨hle, hex⟩ := (mem_positions cs).1 hi
    obtain ⟨m, hm, ht⟩ := List.any_eq_true.1 hex
    refine (mem_positions cs').2 ⟨?_, List.any_eq_true.2 ⟨_, hfirst m hm, h.takes_first ht⟩⟩
    rwa [h.le_length_iff, once_first]

theorem isFinal_eq (hl : Doubled k live live') : live'.isFinal cs' = live.isFinal cs := by
  have hlast : once k cs'.length = cs.length := by
    have hlt := h.lt_length
    have hlen := h.length_eq
    have hcases := once_cases k cs'.length
    omega
  rw [isFinal, isFinal, Bool.eq_iff_iff, decide_eq_true_iff, decide_eq_true_iff, hl.mem_iff, hlast]

theorem mem_pending (hl : Doubled k live live') {c : Pattern} :
    c ∈ live'.pending cs' ↔ c ∈ live.pending cs := by
  rw [pending, pending, List.mem_filterMap, List.mem_filterMap]
  constructor
  · rintro ⟨j, hj, hc⟩
    exact ⟨_, (hl.mem_iff j).1 hj, (h.getElem?_eq j).symm.trans hc⟩
  · rintro ⟨i, hi, hc⟩
    refine ⟨first k i, ?_, ?_⟩
    · rwa [hl.mem_iff, once_first]
    · rwa [h.getElem?_eq, once_first]

/-- Where plain names alone are pending, the same ones are, in the same order. -/
theorem pending_eq (hl : Doubled k live live')
    (hlit : (live.pending cs).all Pattern.isLiteral = true) :
    live'.pending cs' = live.pending cs := by
  have hk : k ∉ live := by
    intro hk
    obtain ⟨c, hc, hr⟩ := h.recursive
    have hcl := List.all_eq_true.1 hlit c (List.mem_filterMap.2 ⟨k, hk, hc⟩)
    rw [Pattern.isRecursive_of_isLiteral hcl] at hr
    cases hr
  have hfirst : live' = live.map (first k) := by
    have hsorted : (live.map (first k)).Pairwise (· < ·) := by
      refine List.pairwise_map.2 (hl.sorted.imp fun {a b} hab => ?_)
      have ha := first_cases k a
      have hb := first_cases k b
      omega
    refine hl.sorted'.eq_of_mem_iff hsorted fun {j} => ?_
    rw [hl.mem_iff, List.mem_map]
    constructor
    · intro hj
      have hne : once k j ≠ k := fun hq => hk (hq ▸ hj)
      have honce := once_cases k j
      have hfirst := first_cases k (once k j)
      exact ⟨_, hj, by omega⟩
    · rintro ⟨i, hi, rfl⟩
      rwa [once_first]
  rw [hfirst, pending, pending, List.filterMap_map]
  refine List.filterMap_congr fun i _ => ?_
  rw [Function.comp_apply, h.getElem?_eq, once_first]

end Repeats
end Live

/-! ### Walks -/

/-- The same plan, but for the recursive component at `k`, which is there twice. -/
structure Plan.Repeats (k : Nat) (p q : Plan) : Prop where
  root : q.root = p.root
  foldersOnly : q.foldersOnly = p.foldersOnly
  options : q.options = p.options
  probing : q.probing = p.probing
  source : p.source ≠ [] ∧ q.source ≠ []
  components : Live.Repeats k p.components q.components

/-- The same task, with the positions of both walks live. -/
inductive Task.Doubled (k : Nat) : Task → Task → Prop where
  | start : Doubled k start start
  | visit (child : Child) {live live' : Live} :
    live.Doubled k live' → Doubled k (visit child live) (visit child live')
  | expand (folder : Path) {live live' : Live} :
    live.Doubled k live' → Doubled k (expand folder live) (expand folder live')

namespace Plan.Repeats
variable {k : Nat} {p q : Plan} (h : Repeats k p q) {d : Disk} {live live' : Live}
include h

theorem includesRoot_eq : q.includesRoot = p.includesRoot := by
  have hlt := h.components.lt_length
  have hlen := h.components.length_eq
  have hp : p.components.isEmpty = false := by
    rw [List.isEmpty_eq_false_iff_exists_mem]
    exact ⟨_, List.getElem_mem hlt⟩
  have hq : q.components.isEmpty = false := by
    rw [List.isEmpty_eq_false_iff_exists_mem]
    exact ⟨_, List.getElem_mem (n := 0) (by omega)⟩
  simp [includesRoot, h.root, h.source, hp, hq]

theorem accepts_eq (hl : live.Doubled k live') (isFolder : Bool) :
    q.accepts live' isFolder = p.accepts live isFolder := by
  rw [accepts, accepts, h.components.isFinal_eq hl, h.foldersOnly]

theorem descends_eq (hl : live.Doubled k live') (isFolder : Bool) :
    q.descends live' isFolder = p.descends live isFolder := by
  have hempty : (live'.pending q.components).isEmpty = (live.pending p.components).isEmpty := by
    rw [Bool.eq_iff_iff, List.isEmpty_iff, List.isEmpty_iff, List.eq_nil_iff_forall_not_mem,
      List.eq_nil_iff_forall_not_mem]
    exact forall_congr' fun c => not_congr (h.components.mem_pending hl)
  rw [descends, descends, hempty]

theorem read_eq (hl : live.Doubled k live') (folder : Path) :
    q.read d folder live' = p.read d folder live := by
  have hlit : (live'.pending q.components).all Pattern.isLiteral =
      (live.pending p.components).all Pattern.isLiteral := by
    rw [Bool.eq_iff_iff, List.all_eq_true, List.all_eq_true]
    exact forall_congr' fun c => imp_congr_left (h.components.mem_pending hl)
  have hprobes : q.probes live' = p.probes live := by
    rw [probes, probes, h.probing, h.options, hlit]
  cases hp : p.probes live with
  | false => rw [read_of_lists hp, read_of_lists (hprobes.trans hp)]
  | true =>
    have hall : (live.pending p.components).all Pattern.isLiteral = true :=
      (Bool.and_eq_true_iff.1 hp).2
    rw [read_of_probes hp, read_of_probes (hprobes.trans hp), asked, asked,
      h.components.pending_eq hl hall]

theorem abreast_run {t t' : Task} (ht : t.Doubled k t') :
    Turn.Abreast (Task.Doubled k) (fun _ => true) (t.run p d) (t'.run q d) := by
  have harrive : ∀ (reported isFolder : Bool) (path : Path) {live live' : Live},
      live.Doubled k live' → Turn.Abreast (Task.Doubled k) (fun _ => true)
        (p.arrive reported path isFolder live) (q.arrive reported path isFolder live') :=
    fun reported isFolder path _ _ hl => abreast_arrive reported
      ((h.accepts_eq hl isFolder).trans (Bool.and_true _).symm) (h.descends_eq hl isFolder)
      (.expand path hl)
  cases ht with
  | start =>
    rw [Task.run, Task.run, h.root, h.includesRoot_eq]
    split
    · exact harrive _ _ _ h.components.doubled_start
    · exact ⟨rfl, rfl, .nil⟩
  | visit child hl =>
    rw [Task.run, Task.run, h.options]
    cases child.error with
    | some e => exact ⟨rfl, rfl, .nil⟩
    | none => exact harrive _ _ _ (h.components.doubled_advance hl child.path.name)
  | expand folder hl =>
    exact Task.abreast_expand (h.read_eq hl folder) (fun _ => rfl) fun _ _ child _ =>
      .visit child hl

theorem events_eq (hd : d.WellNamed) (hp : p.Named) (hq : q.Named) : q.events d = p.events d := by
  rw [events_abreast h.abreast_run .start hd hp hq]
  refine List.filter_eq_self.2 fun e _ => ?_
  cases e <;> rfl

end Plan.Repeats

/-! ### Sources -/

namespace Pattern
variable {c : Pattern}

/-- The second copy of a recursive component is merged with the first. -/
theorem merged_woven_repeated (hc : '/' ∉ c.source) (hr : c.isRecursive = true)
    (pre post : List Pattern) :
    Token.merged (woven (pre ++ c :: c :: post)) = Token.merged (woven (pre ++ c :: post)) := by
  induction pre with
  | nil =>
    rw [List.nil_append, List.nil_append, woven_recursive hc hr, woven_recursive hc hr]
    exact Token.merged_cons_of_deep rfl
  | cons b pre ih =>
    rw [List.cons_append, List.cons_append, woven_cons (by simp), woven_cons (by simp)]
    split
    · exact Token.merged_congr ih _
    · exact Token.merged_append_congr (Token.merged_congr ih _) _

end Pattern

/-- What stands between a text that ends with a separator and one that starts with it, or between
nothing, is cut by itself. -/
theorem Text.pieces_between {u v : Text} (hu : u.getLast?.all (· = '/') = true)
    (hv : v.head?.all (· = '/') = true) :
    ∃ front back, ∀ m, List.splitOn '/' (u ++ m ++ v) = front ++ List.splitOn '/' m ++ back := by
  obtain ⟨back, hback⟩ : ∃ back, ∀ m, List.splitOn '/' (m ++ v) = List.splitOn '/' m ++ back := by
    cases v with
    | nil => exact ⟨[], fun m => by simp⟩
    | cons c v =>
      obtain rfl : c = '/' := of_decide_eq_true hv
      exact ⟨List.splitOn '/' v, fun m => List.splitOn_append_cons_self m v⟩
  rcases List.eq_nil_or_concat' u with rfl | ⟨u, c, rfl⟩
  · exact ⟨[], back, hback⟩
  · obtain rfl : c = '/' := by simpa using hu
    refine ⟨List.splitOn '/' u, back, fun m => ?_⟩
    rw [List.append_assoc, List.append_assoc, List.singleton_append,
      List.splitOn_append_cons_self, hback, List.append_assoc]

namespace Plan
variable {pre post : List Pattern} {c : Pattern}

/-- The plain names in front end before a recursive component. -/
theorem span_recursive (hr : c.isRecursive = true) (pre post : List Pattern) :
    (pre ++ c :: post).takeWhile Pattern.isLiteral = pre.takeWhile Pattern.isLiteral ∧
      (pre ++ c :: post).dropWhile Pattern.isLiteral =
        pre.dropWhile Pattern.isLiteral ++ c :: post := by
  have hc : c.isLiteral = false := Bool.eq_false_iff.2 fun hl => by
    rw [Pattern.isRecursive_of_isLiteral hl] at hr
    cases hr
  induction pre with
  | nil => simp [hc]
  | cons b pre ih =>
    rw [List.cons_append, List.takeWhile_cons, List.takeWhile_cons, List.dropWhile_cons,
      List.dropWhile_cons, ih.1, ih.2]
    split
    · exact ⟨rfl, rfl⟩
    · exact ⟨rfl, rfl⟩

theorem repeats_joined {source : Text} {p : Plan} (hr : c.isRecursive = true)
    (hp : p.components = pre ++ c :: post) (hsource : p.source ≠ [] ∧ source ≠ []) :
    p.joined.Repeats (pre.dropWhile Pattern.isLiteral).length
      { p with source, components := pre ++ c :: c :: post }.joined where
  root := by
    show List.foldl _ _ _ = List.foldl _ _ _
    rw [hp, (span_recursive hr pre post).1, (span_recursive hr pre (c :: post)).1]
  foldersOnly := rfl
  options := rfl
  probing := rfl
  source := hsource
  components := by
    show Live.Repeats _ (List.dropWhile _ _) (List.dropWhile _ _)
    rw [hp, (span_recursive hr pre post).2, (span_recursive hr pre (c :: post)).2]
    exact Live.repeats _ post hr

/-- The plans of two sources that have the same pieces but for a recursive one, which the second
has twice. -/
theorem exists_repeats {o : Options} {source other : Text} {p : Plan}
    (hcs : (pre ++ c :: post).map Pattern.source = List.splitOn '/' source)
    (hcs' : (pre ++ c :: c :: post).map Pattern.source = List.splitOn '/' other)
    (hc : c.source = ['*', '*']) (hhead : other.head? = source.head?)
    (hlast : other.getLast? = source.getLast?) (hp : ofSource o source = .ok p) :
    ∃ q k, ofSource o other = .ok q ∧ p.Repeats k q := by
  have hr : c.isRecursive = true := (c.recursive_iff (by simp [hc])).2 hc
  have hne : source ≠ [] := by
    rintro rfl
    have hmem : c.source ∈ List.splitOn '/' [] := hcs ▸ List.mem_map_of_mem (by simp)
    rw [List.mem_singleton.1 hmem] at hc
    cases hc
  have hne' : other ≠ [] := by
    rintro rfl
    exact hne (List.head?_eq_none_iff.1 hhead.symm)
  have hp' := ofSource_pieces (o := o) hcs
  have hq := ofSource_pieces (o := o) hcs'
  generalize hkeep : (fun c : Pattern => c.source ≠ [] && c.source ≠ ['.'] : Pattern → Bool) = keep
    at hp' hq
  have hkept : keep c = true := by simp [← hkeep, hc]
  rw [List.filter_append, List.filter_cons_of_pos hkept] at hp' hq
  rw [List.filter_cons_of_pos hkept, hhead, hlast] at hq
  have hempty : ∀ tail, (pre.filter keep ++ c :: tail).isEmpty = false := fun tail => by simp
  rw [hempty] at hp' hq
  obtain rfl := Except.ok.inj (hp'.symm.trans hp)
  exact ⟨_, _, hq, repeats_joined hr rfl ⟨hne, hne'⟩⟩

end Plan

/-- **A recursive component may as well be written twice.** The source with one more has a plan as
well, on every disk the same is asked and found in the same order, and as a pattern it covers the
same texts. -/
theorem events_repeated {o : Options} {u v : Text} {p : Plan} (hu : u.getLast?.all (· = '/') = true)
    (hv : v.head?.all (· = '/') = true) (hp : Plan.ofSource o (u ++ "**".toList ++ v) = .ok p) :
    (∃ q, Plan.ofSource o (u ++ "**/**".toList ++ v) = .ok q ∧
      ∀ d, d.WellNamed → q.events d = p.events d) ∧
    ∃ whole whole', Pattern.compile (u ++ "**".toList ++ v) = .ok whole ∧
      Pattern.compile (u ++ "**/**".toList ++ v) = .ok whole' ∧
      whole'.tokens = whole.tokens ∧ ∀ o' text, whole'.covers o' text = whole.covers o' text := by
  obtain ⟨front, back, hpieces⟩ := Text.pieces_between hu hv
  obtain ⟨pre, c, post, hpre, hc, hpost⟩ :
      ∃ (pre : List Pattern) (c : Pattern) (post : List Pattern),
      pre.map Pattern.source = front ∧ c.source = "**".toList ∧ post.map Pattern.source = back := by
    obtain ⟨cs, hcs⟩ := Plan.exists_of_pieces hp
    rw [hpieces, List.append_assoc] at hcs
    obtain ⟨pre, rest, rfl, hpre, hrest⟩ := List.map_eq_append_iff.1 hcs
    obtain ⟨c, post, rfl, hc, hpost⟩ := List.map_eq_cons_iff.1 hrest
    exact ⟨pre, c, post, hpre, hc, hpost⟩
  have hcs : (pre ++ c :: post).map Pattern.source =
      List.splitOn '/' (u ++ "**".toList ++ v) := by
    rw [hpieces, ← hpre, ← hpost]
    simp [hc, List.splitOn_cons_eq_if_modifyHead]
  have hcs' : (pre ++ c :: c :: post).map Pattern.source =
      List.splitOn '/' (u ++ "**/**".toList ++ v) := by
    rw [hpieces, ← hpre, ← hpost]
    simp [hc, List.splitOn_cons_eq_if_modifyHead]
  have hsep : '/' ∉ c.source := by simp [hc]
  have hr : c.isRecursive = true := (c.recursive_iff hsep).2 hc
  refine ⟨?_, ?_⟩
  · have hhead : (u ++ "**/**".toList ++ v).head? = (u ++ "**".toList ++ v).head? := by
      cases u <;> rfl
    have hlast : (u ++ "**/**".toList ++ v).getLast? = (u ++ "**".toList ++ v).getLast? := by
      simp [List.getLast?_append]
    obtain ⟨q, k, hq, hrepeats⟩ := Plan.exists_repeats hcs hcs' hc hhead hlast hp
    exact ⟨q, hq, fun d hd =>
      hrepeats.events_eq hd (Plan.named_of_ofSource hp) (Plan.named_of_ofSource hq)⟩
  · obtain ⟨whole, hwhole, htokens⟩ := Pattern.compile_pieces hcs
    obtain ⟨whole', hwhole', htokens'⟩ := Pattern.compile_pieces hcs'
    have heq : whole'.tokens = whole.tokens := by
      rw [htokens', htokens, Pattern.merged_woven_repeated hsep hr]
    refine ⟨whole, whole', hwhole, hwhole', heq, fun o' text => ?_⟩
    rw [Pattern.covers, Pattern.covers, heq]

/-- Between a name and another, where one folder lies between the two. -/
theorem events_repeated_inner :
    ∃ q, Plan.ofSource {} "d/**/**/x".toList = .ok q ∧
      q.findings (.ofLines ["d/e/x".toList]) = [.success (.ofText "d/e/x".toList)] := by
  have hname : Token.ofSource "d".toList = .ok [.char 'd'] := by cbv
  have hdeep : Token.ofSource "**".toList = .ok [.deep] := by cbv
  have hx : Token.ofSource "x".toList = .ok [.char 'x'] := by cbv
  have hwhole : Token.ofSource "d/**/x".toList =
      .ok [.char 'd', .char '/', .deep, .char 'x'] := by cbv
  have hp := Plan.ofSource_of_components (o := {})
    [⟨_, _, hname⟩, ⟨_, _, hdeep⟩, ⟨_, _, hx⟩] hwhole rfl
  obtain ⟨⟨q, hq, hsame⟩, -⟩ := events_repeated (u := "d/".toList) (v := "/x".toList) rfl rfl hp
  refine ⟨q, hq, ?_⟩
  rw [Plan.findings, hsame _ (by cbv)]
  cbv

end PathGlob
