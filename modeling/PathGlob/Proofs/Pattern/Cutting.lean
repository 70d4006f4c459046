import PathGlob.Proofs.Pattern.Components
import PathGlob.Proofs.Pattern.Faults

/-! A source cut at its separators.

A source that is a row of items is cut into pieces. Where no set holds a separator, the cuts
fall between items, or off the end of a `**`, and every piece is a row of items again
(`Cut.pieces`). A set that holds one is cut open: the piece that it starts in ends before its
closing bracket, so that piece has an error where the set opens, and the pieces before the
first such set have none (`Cut.pieces_of_crossing`). -/
namespace PathGlob

namespace Text

/-- The number of characters behind the last separator. -/
def column (s : Text) : Nat := ((s.splitOn '/').getLast?.getD []).length

theorem column_of_not_mem {s : Text} (h : '/' ∉ s) : s.column = s.length := by
  rw [column, List.splitOn_eq_singleton h]
  rfl

theorem column_separator (s t : Text) : column (s ++ '/' :: t) = t.column := by
  rw [column, List.splitOn_append_cons_self,
    List.getLast?_append_of_ne_nil _ (List.splitOn_ne_nil '/' t)]
  rfl

example : Text.column "[d]/x".toList = 1 := by decide

end Text

namespace Item
variable {before other : Option Char} {s rest : Text} {item : Item} {items : List Item}

/-- Whether the item is a set with a separator between its brackets. -/
def crosses : Item → Bool
  | bracket _ body => body.contains '/'
  | _ => false

theorem mem_text_of_crosses (h : item.crosses = true) : '/' ∈ item.text := by
  cases item with
  | bracket negated body =>
    have hb : '/' ∈ body := List.contains_iff_mem.1 h
    simp [text, hb]
  | _ => cases h

theorem crosses_of_not_mem_text (h : '/' ∉ item.text) : item.crosses = false :=
  Bool.eq_false_iff.2 fun hc => h (mem_text_of_crosses hc)

/-- A separator is in an item of its own, at the end of a `**`, or between brackets. -/
theorem cases_of_mem_text (h : '/' ∈ item.text) :
    item = char '/' ∨ item = deep true ∨ item.crosses = true := by
  cases item with
  | char c =>
    obtain rfl : '/' = c := by simpa [text] using h
    exact .inl rfl
  | one => simp [text] at h
  | run => simp [text] at h
  | deep separated =>
    cases separated with
    | false => simp [text] at h
    | true => exact .inr (.inl rfl)
  | bracket negated body =>
    refine .inr (.inr (List.contains_iff_mem.2 ?_))
    cases negated <;> simpa [text] using h

/-! ### Something else behind an item -/

/-- An item is read as well where something else follows it, unless that starts with a star or
follows what ended the source. -/
theorem Reads.relay (h : Reads before s item rest) {more : Text} (hend : rest = [] → more = [])
    (hstar : more.head? = some '*' → rest.head? = some '*') :
    Reads before (item.text ++ more) item more := by
  cases h with
  | char h₁ h₂ h₃ => exact .char h₁ h₂ h₃
  | one => exact .one
  | run h => exact .run fun hq => h (hstar hq)
  | last h =>
    rw [hend rfl]
    exact .last h
  | deep h => exact .deep h
  | @bracket x body _ hx hb =>
    have ht : (Item.bracket false (x :: body)).text ++ more = '[' :: x :: (body ++ ']' :: more) := by
      simp [Item.text]
    rw [ht]
    exact .bracket hx hb
  | @negated x body _ hb =>
    have ht : (Item.bracket true (x :: body)).text ++ more = '[' :: '!' :: x :: (body ++ ']' :: more) := by
      simp [Item.text]
    rw [ht]
    exact .negated hb

/-- An item is read as well where less of what follows it is left. -/
theorem Reads.shorten (h : Reads before s item rest) {less : Text} (hl : less <+: rest) :
    Reads before (item.text ++ less) item less := by
  obtain ⟨more, rfl⟩ := hl
  refine h.relay (fun hq => (List.append_eq_nil_iff.1 hq).1) fun hq => ?_
  rw [List.head?_append, hq]
  rfl

/-- Of what stands before, an item only tells whether it is a separator. -/
theorem Reads.congr (h : Reads before s item rest)
    (hb : before.all (· = '/') = other.all (· = '/')) : Reads other s item rest := by
  cases h with
  | char h₁ h₂ h₃ => exact .char h₁ h₂ h₃
  | one => exact .one
  | run h => exact .run h
  | last h => exact .last (hb ▸ h)
  | deep h => exact .deep (hb ▸ h)
  | bracket hx hb => exact .bracket hx hb
  | negated hb => exact .negated hb

theorem Row.congr (h : Row before s items)
    (hb : before.all (· = '/') = other.all (· = '/')) : Row other s items := by
  cases h with
  | nil => exact .nil
  | cons hi hm => exact .cons (hi.congr hb) hm

theorem Front.congr {last : Option Char} (h : Front before s items last rest)
    (hb : before.all (· = '/') = other.all (· = '/')) : ∃ last, Front other s items last rest := by
  cases h with
  | nil => exact ⟨other, .nil⟩
  | cons hi hf => exact ⟨last, .cons (hi.congr hb) hf⟩

/-- No set is read where no bracket closes it behind its first member. -/
theorem not_reads_open (h : ∀ x t, s = x :: t → x ≠ '!' → ']' ∉ t)
    (h' : ∀ x t, s = '!' :: x :: t → ']' ∉ t) : ¬ Reads before ('[' :: s) item rest := by
  intro hr
  cases hr with
  | char _ _ hc => exact hc rfl
  | bracket hx _ => exact h _ _ rfl hx (by simp)
  | negated _ => exact h' _ _ rfl (by simp)

/-- Up to a separator in it a set is not closed. -/
theorem open_of_reads (h : Reads before s item rest) (hc : item.crosses = true) :
    ∃ u v, '/' ∉ u ∧ s = '[' :: u ++ '/' :: v ∧
      ∀ other item rest, ¬ Reads other ('[' :: u) item rest := by
  cases h with
  | @bracket x body _ hx hb =>
    obtain ⟨u, more, hbody, hu⟩ := List.eq_append_cons_of_mem (List.contains_iff_mem.1 hc)
    refine ⟨u, more ++ ']' :: rest, hu, ?_, fun other item rest => not_reads_open ?_ ?_⟩
    · rw [← List.cons_append, hbody]
      simp
    · intro y t hq _ ht
      subst hq
      obtain ⟨-, rfl⟩ := List.cons.inj hbody
      exact hb (List.mem_append_left _ ht)
    · intro y t hq
      subst hq
      exact absurd (List.cons.inj hbody).1 hx
  | @negated x body _ hb =>
    obtain ⟨u, more, hbody, hu⟩ := List.eq_append_cons_of_mem (List.contains_iff_mem.1 hc)
    refine ⟨'!' :: u, more ++ ']' :: rest, by simpa using hu, ?_,
      fun other item rest => not_reads_open ?_ ?_⟩
    · have hcat : x :: (body ++ ']' :: rest) = u ++ '/' :: (more ++ ']' :: rest) := by
        rw [← List.cons_append, hbody]
        simp
      rw [hcat]
      rfl
    · intro y t hq hy
      exact absurd (List.cons.inj hq).1.symm hy
    · intro y t hq ht
      obtain rfl := (List.cons.inj hq).2
      obtain ⟨-, rfl⟩ := List.cons.inj hbody
      exact hb (List.mem_append_left _ ht)
  | _ => cases hc

/-! ### The first piece, and the others -/

/-- A row of items as the separators of its source cut it. -/
inductive Cut : Option Char → Text → List Item → Prop where
  | last {before : Option Char} {s : Text} {items : List Item} :
    '/' ∉ s → Row before s items → Cut before s items
  /-- The separator is an item of its own, or the last character of a `**`. -/
  | next {before : Option Char} {u v : Text} {own front back : List Item} :
    '/' ∉ u → Row before u own → front.flatMap text = u ++ ['/'] →
      (∀ item ∈ front, item.crosses = false) → Cut (some '/') v back →
      Cut before (u ++ '/' :: v) (front ++ back)
  /-- The separator is in a set, which no bracket closes before it. -/
  | inside {before last : Option Char} {u v t : Text} {front back : List Item} {item : Item} :
    '/' ∉ u → Front before u front last ('[' :: t) →
      (∀ other item rest, ¬ Reads other ('[' :: t) item rest) →
      (∀ item ∈ front, item.crosses = false) → '/' ∉ front.flatMap text → item.crosses = true →
      Cut before (u ++ '/' :: v) (front ++ item :: back)

theorem Cut.cons (hi : Reads before s item rest) (hn : '/' ∉ item.text)
    (h : Cut item.text.getLast? rest items) : Cut before s (item :: items) := by
  have hc := crosses_of_not_mem_text hn
  cases h with
  | last hs hr =>
    refine .last ?_ (.cons hi hr)
    rw [← hi.text_append]
    exact List.not_mem_append hn hs
  | @next _ u v own front back hu hr htext hfront hback =>
    rw [← hi.text_append, ← List.append_assoc, ← List.cons_append]
    refine .next (List.not_mem_append hn hu) (.cons (hi.shorten (List.prefix_append _ _)) hr) ?_ ?_ hback
    · rw [List.flatMap_cons, htext, List.append_assoc]
    · exact List.forall_mem_cons.2 ⟨hc, hfront⟩
  | @inside _ last u v t front back item' hu hf hnone hfront htext hcross =>
    rw [← hi.text_append, ← List.append_assoc, ← List.cons_append]
    refine .inside (List.not_mem_append hn hu) (.cons (hi.shorten (List.prefix_append _ _)) hf)
      hnone ?_ ?_ hcross
    · exact List.forall_mem_cons.2 ⟨hc, hfront⟩
    · rw [List.flatMap_cons]
      exact List.not_mem_append hn htext

/-- **The separators of a source fall between items, or cut a set open.** -/
theorem Row.cut (h : Row before s items) : Cut before s items := by
  induction h with
  | nil => exact .last List.not_mem_nil .nil
  | @cons before s rest item more hi _ ih =>
    by_cases hn : '/' ∈ item.text
    · rcases cases_of_mem_text hn with rfl | rfl | hc
      · cases hi
        show Cut before ([] ++ '/' :: rest) ([.char '/'] ++ more)
        exact .next List.not_mem_nil .nil rfl (List.forall_mem_singleton.2 rfl) ih
      · cases hi with
        | deep hb =>
          show Cut before (['*', '*'] ++ '/' :: rest) ([.deep true] ++ more)
          exact .next (by decide) (.cons (.last hb) .nil) rfl (List.forall_mem_singleton.2 rfl) ih
      · obtain ⟨u, v, hu, rfl, hnone⟩ := open_of_reads hi hc
        show Cut before ('[' :: u ++ '/' :: v) ([] ++ item :: more)
        exact .inside (by simpa using hu) .nil hnone nofun List.not_mem_nil hc
    · exact ih.cons hi hn

/-! ### Pieces -/

theorem crosses_of_not_mem (h : Row before s items) (hs : '/' ∉ s) :
    ∀ item ∈ items, item.crosses = false := by
  intro item hi
  rw [← h.flatMap_text] at hs
  exact crosses_of_not_mem_text fun ht => hs (List.mem_flatMap_of_mem hi ht)

/-- Where no set holds a separator, each piece is a row of items. -/
theorem Cut.pieces (h : Cut before s items) (hb : before.all (· = '/') = true)
    (hc : ∀ item ∈ items, item.crosses = false) :
    ∀ piece ∈ List.splitOn '/' s, ∃ own, Row none piece own := by
  induction h with
  | last hs hr =>
    rw [List.splitOn_eq_singleton hs]
    exact List.forall_mem_singleton.2 ⟨_, hr.congr hb⟩
  | next hu hr _ _ _ ih =>
    rw [List.splitOn_append_cons_self_of_not_mem hu]
    refine List.forall_mem_cons.2 ⟨⟨_, hr.congr hb⟩, ih rfl fun item hi => ?_⟩
    exact hc item (List.mem_append_right _ hi)
  | inside _ _ _ _ _ hcross =>
    rw [hc _ (List.mem_append_right _ List.mem_cons_self)] at hcross
    cases hcross

/-- The first set that holds a separator opens in a piece that has an error there, in the
column where it opens. The pieces before that one are rows of items. -/
theorem Cut.pieces_of_crossing (h : Cut before s items) (hb : before.all (· = '/') = true)
    (hc : ∃ item ∈ items, item.crosses = true) :
    ∃ goods bad others, List.splitOn '/' s = goods ++ bad :: others ∧
      (∀ good ∈ goods, ∃ own, Row none good own) ∧
      readAll none 0 bad = .error ⟨.openSet,
        Text.column ((items.takeWhile fun item => !item.crosses).flatMap text)⟩ := by
  induction h with
  | last hs hr =>
    obtain ⟨item, hi, hcross⟩ := hc
    rw [crosses_of_not_mem hr hs item hi] at hcross
    cases hcross
  | @next before u v own front back hu hr htext hfront _ ih =>
    have hback : ∃ item ∈ back, item.crosses = true := by
      obtain ⟨item, hi, hcross⟩ := hc
      refine ⟨item, (List.mem_append.1 hi).resolve_left fun hi => ?_, hcross⟩
      rw [hfront item hi] at hcross
      cases hcross
    obtain ⟨goods, bad, others, hp, hgoods, hbad⟩ := ih rfl hback
    refine ⟨u :: goods, bad, others, ?_, List.forall_mem_cons.2 ⟨⟨own, hr.congr hb⟩, hgoods⟩, ?_⟩
    · rw [List.splitOn_append_cons_self_of_not_mem hu, hp, List.cons_append]
    · rw [List.takeWhile_append_of_pos fun item hi => by rw [hfront item hi]; rfl,
        List.flatMap_append, htext, List.append_assoc, List.singleton_append,
        Text.column_separator]
      exact hbad
  | @inside before last u v t front back item hu hf hnone hfront htext hcross =>
    refine ⟨[], u, List.splitOn '/' v, List.splitOn_append_cons_self_of_not_mem hu v, nofun, ?_⟩
    rw [List.takeWhile_append_of_pos fun item hi => by rw [hfront item hi]; rfl,
      List.takeWhile_cons_of_neg (by simp [hcross]), List.append_nil, Text.column_of_not_mem htext]
    obtain ⟨last', hf'⟩ : ∃ last', Front none u front last' ('[' :: t) := hf.congr hb
    have herror : readAll none 0 u = .error ⟨.openSet, 0 + (front.flatMap text).length⟩ :=
      readAll_of_front hf' (.openSet (hnone last'))
    rwa [Nat.zero_add] at herror

end Item
end PathGlob
