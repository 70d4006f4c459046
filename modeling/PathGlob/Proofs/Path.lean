import PathGlob.Disk.Basic
import PathGlob.Path

/-! Paths written as texts are followed by their names.

A name that was read from a path is not empty, no dot, and holds no separator. A path
of such names is written as a text that is cut into the same names again
(`Path.steps_text`), but for the path of no names, which is written as a dot. Reading
the text gives the path back (`Path.ofText_text`), so different paths have different texts. -/
namespace PathGlob

/-- What may stand between two separators of a path and counts as a name of it. -/
structure Plain (n : Text) : Prop where
  ne_nil : n ≠ []
  ne_dot : n ≠ ['.']
  not_mem : '/' ∉ n

namespace Path
variable {p : Path} {n : Text}

/-- Every name of the path is one that can be read from a text. -/
def Named (p : Path) : Prop := ∀ n ∈ p.names, Plain n

theorem plain_of_mem_namesOf {s : Text} (h : n ∈ namesOf s) : Plain n := by
  obtain ⟨hp, hn⟩ := List.mem_filter.1 h
  simp only [ne_eq, Bool.and_eq_true, decide_eq_true_eq] at hn
  exact ⟨hn.1, hn.2, Text.not_mem_of_mem_splitOn '/' s n hp⟩

theorem join_plain (p : Path) (h : Plain n) : p.join n = { p with names := p.names ++ [n] } :=
  p.join_of_plain h.not_mem h.ne_nil h.ne_dot

theorem Named.concat (hp : p.Named) (h : Plain n) : Named { p with names := p.names ++ [n] } :=
  List.forall_mem_append.2 ⟨hp, List.forall_mem_singleton.2 h⟩

theorem Named.join (hp : p.Named) (s : Text) : (p.join s).Named := by
  rw [Path.join]
  split
  · exact List.forall_mem_append.2 ⟨hp, fun _ => plain_of_mem_namesOf⟩
  · exact fun _ => plain_of_mem_namesOf

theorem Named.not_mem_name (hp : p.Named) : '/' ∉ p.name := by
  rw [name]
  cases h : p.names.getLast? with
  | none => exact List.not_mem_nil
  | some n => exact (hp n (List.mem_of_getLast? h)).not_mem

theorem steps_separator (s : Text) : Disk.steps ('/' :: s) = Disk.steps s := by
  simp [Disk.steps, List.splitOn_cons_eq_if_modifyHead]

theorem steps_names {names : List Text} (h : ∀ n ∈ names, Plain n) :
    Disk.steps (['/'].intercalate names) = names := by
  by_cases hn : names = []
  · rw [hn]
    rfl
  · rw [Disk.steps, List.splitOn_intercalate '/' (fun n hm => (h n hm).not_mem) hn,
      List.filter_eq_self]
    exact fun n hm => decide_eq_true (h n hm).ne_nil

theorem steps_anchor (a : Anchor) (s : Text) : Disk.steps (a.text ++ s) = Disk.steps s := by
  cases a with
  | here => rfl
  | root => exact steps_separator s
  | doubleRoot => rw [Anchor.text, List.cons_append, steps_separator, List.cons_append,
      steps_separator, List.nil_append]

/-- The text of a path is followed by the names of the path. -/
theorem steps_text (hp : p.Named) :
    Disk.steps p.text = if p = ⟨.here, []⟩ then [['.']] else p.names := by
  obtain ⟨anchor, names⟩ := p
  by_cases h : (anchor = .here && names.isEmpty) = true
  · rw [Bool.and_eq_true, decide_eq_true_eq, List.isEmpty_iff] at h
    obtain ⟨rfl, rfl⟩ := h
    rfl
  · have hne : (⟨anchor, names⟩ : Path) ≠ ⟨.here, []⟩ := by
      intro hq
      cases hq
      exact h rfl
    rw [text, if_neg h, if_neg hne, steps_anchor, steps_names hp]

theorem ofText_anchor (a : Anchor) {s : Text} (h : s.head? ≠ some '/') :
    Anchor.ofText (a.text ++ s) = a := by
  cases s with
  | nil => cases a <;> rfl
  | cons c s =>
    have hc : c ≠ '/' := fun hc => h (congrArg some hc)
    cases a <;> simp [Anchor.text, Anchor.ofText, hc]

theorem head?_names {names : List Text} (h : ∀ n ∈ names, Plain n) :
    (['/'].intercalate names).head? ≠ some '/' := by
  cases names with
  | nil => nofun
  | cons n names =>
    have hn : Plain n := h n List.mem_cons_self
    obtain ⟨c, n, rfl⟩ := List.exists_cons_of_ne_nil hn.ne_nil
    have hc : c ≠ '/' := fun hc => hn.not_mem (hc ▸ List.mem_cons_self)
    cases names <;> simp [List.intercalate_cons_cons, List.intercalate_singleton, hc]

/-- The text of a path that has names does not end with a separator. -/
theorem getLast?_text (hp : p.Named) (hne : p.names ≠ []) : p.text.getLast? ≠ some '/' := by
  have hpieces := List.splitOn_intercalate '/' (fun n hn => (hp n hn).not_mem) hne
  have htext : p.text = p.anchor.text ++ ['/'].intercalate p.names := if_neg (by simp [hne])
  have hnil : [] ∉ p.names := fun hmem => (hp [] hmem).ne_nil rfl
  rw [htext, List.getLast?_append]
  intro hlast
  cases hl : (['/'].intercalate p.names).getLast? with
  | none =>
    rw [List.getLast?_eq_none_iff.1 hl] at hpieces
    exact hnil (hpieces ▸ List.mem_singleton_self [])
  | some c =>
    rw [hl, Option.some_or] at hlast
    obtain ⟨front, hfront⟩ := List.getLast?_eq_some_iff.1 (hl.trans hlast)
    rw [hfront, List.splitOn_append_cons_self] at hpieces
    exact hnil (hpieces ▸ List.mem_append_right _ (List.mem_singleton_self []))

theorem isAbsolute_text (hp : p.Named) : Disk.isAbsolute p.text = (p.anchor ≠ .here : Bool) := by
  obtain ⟨anchor, names⟩ := p
  cases anchor with
  | root => rfl
  | doubleRoot => rfl
  | here =>
    cases names with
    | nil => rfl
    | cons n names => simpa [text, Anchor.text, Disk.isAbsolute] using head?_names hp

/-- A path is read from its text as it was. -/
theorem ofText_text (hp : p.Named) : ofText p.text = p := by
  have hnames : namesOf p.text = (Disk.steps p.text).filter (· ≠ ['.']) := by
    rw [namesOf, Disk.steps, List.filter_filter]
    exact List.filter_congr fun n _ => Bool.and_comm _ _
  obtain ⟨anchor, names⟩ := p
  rw [ofText, hnames, steps_text hp]
  by_cases hdot : (⟨anchor, names⟩ : Path) = ⟨.here, []⟩
  · rw [if_pos hdot, hdot]
    rfl
  · have htext : text ⟨anchor, names⟩ = anchor.text ++ ['/'].intercalate names := by
      rw [text, if_neg]
      simpa using hdot
    rw [if_neg hdot, htext, ofText_anchor anchor (head?_names hp),
      List.filter_eq_self.2 fun n hn => decide_eq_true (hp n hn).ne_dot]

theorem text_ne_nil (hp : p.Named) : p.text ≠ [] := by
  intro hq
  have hp' := ofText_text hp
  rw [hq] at hp'
  rw [← hp'] at hq
  cases hq

/-! ### Paths below paths -/

/-- The path with more names. -/
def below (p : Path) (names : List Text) : Path := { p with names := p.names ++ names }

theorem below_nil (p : Path) : p.below [] = p := by
  rw [below, List.append_nil]

theorem below_below (p : Path) (names more : List Text) :
    (p.below names).below more = p.below (names ++ more) := by
  simp only [below, List.append_assoc]

theorem name_below (p : Path) (n : Text) : (p.below [n]).name = n := by
  simp [name, below]

theorem below_inj {names more : List Text} : p.below names = p.below more ↔ names = more :=
  ⟨fun h => List.append_cancel_left (congrArg Path.names h), fun h => h ▸ rfl⟩

/-- The path is `top` or below it. -/
def Within (q top : Path) : Prop := q.anchor = top.anchor ∧ top.names <+: q.names

instance (q top : Path) : Decidable (q.Within top) := inferInstanceAs (Decidable (_ ∧ _))

/-- The path is below `top`. -/
def Inside (q top : Path) : Prop := q.Within top ∧ q ≠ top

instance (q top : Path) : Decidable (q.Inside top) := inferInstanceAs (Decidable (_ ∧ _))

variable {q r top : Path} {m : Text}

theorem within_self (p : Path) : p.Within p := ⟨rfl, List.prefix_rfl⟩

theorem within_below (p : Path) (names : List Text) : (p.below names).Within p :=
  ⟨rfl, List.prefix_append _ _⟩

theorem Within.trans (h : q.Within r) (h' : r.Within p) : q.Within p :=
  ⟨h.1.trans h'.1, h'.2.trans h.2⟩

theorem Within.antisymm (h : q.Within p) (h' : p.Within q) : q = p := by
  obtain ⟨anchor, names⟩ := q
  obtain ⟨anchor', names'⟩ := p
  obtain rfl : anchor = anchor' := h.1
  obtain rfl : names = names' := h'.2.eq_of_length_le h.2.length_le
  rfl

theorem Inside.not_within (h : q.Inside p) : ¬ p.Within q := fun hw => h.2 (h.1.antisymm hw)

/-- Of two paths that another is below, one is below the other. -/
theorem Within.total (h : q.Within p) (h' : q.Within r) : p.Within r ∨ r.Within p :=
  (List.prefix_or_prefix_of_prefix h'.2 h.2).imp
    (fun hn => ⟨h.1.symm.trans h'.1, hn⟩) (fun hn => ⟨h'.1.symm.trans h.1, hn⟩)

theorem Named.below (hp : p.Named) (h : Plain n) : (p.below [n]).Named := hp.concat h

theorem below_ne (p : Path) (n : Text) : p.below [n] ≠ p := by
  intro h
  exact List.cons_ne_nil n [] (below_inj.1 (h.trans p.below_nil.symm))

theorem not_within_below (p : Path) (n : Text) : ¬ p.Within (p.below [n]) := by
  intro h
  have hlen : (p.names ++ [n]).length ≤ p.names.length := h.2.length_le
  rw [List.length_append, List.length_singleton] at hlen
  omega

/-- Nothing is below two names of a path. -/
theorem eq_of_within_below (h : q.Within (p.below [n])) (h' : q.Within (p.below [m])) : n = m := by
  have hsame : ∀ n m : Text, (p.below [n]).Within (p.below [m]) → n = m := by
    intro n m h
    have heq : p.names ++ [m] = p.names ++ [n] := h.2.eq_of_length (by simp [below])
    simpa using heq.symm
  rcases h.total h' with h | h
  · exact hsame n m h
  · exact (hsame m n h).symm

end Path
end PathGlob
