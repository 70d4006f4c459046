import PathGlob.Path
import PathGlob.Proofs.Lists
import PathGlob.Proofs.Pattern.Cutting
import PathGlob.Proofs.Pattern.Matching

/-! Sources that differ in the case of letters.

A letter outside sets is an item of its own, and the other case is as good an item there
(`Item.Row.recase`). No letter is a separator or a dot, so where the names of a source are
patterns, the names of the other source are these names with letters in the other case
(`Pattern.Recased.namesOf`). Without regard to case such patterns cover the same texts
(`Pattern.covers_recased`), by what holds of any two rows of tokens that agree on the characters
they take (`Token.matchFrom_agree`). -/
namespace PathGlob

namespace Text
variable {a b m : Char}

/-- The same character, but for the case of an ASCII letter. -/
def Recased (a b : Char) : Prop :=
  a = b ∨ isAsciiLetter a = true ∧ isAsciiLetter b = true ∧ a.toLower = b.toLower

theorem Recased.eq_iff (h : Recased a b) (hm : isAsciiLetter m = false) : a = m ↔ b = m := by
  rcases h with rfl | ⟨ha, hb, -⟩
  · rfl
  · refine iff_of_false (fun hq => ?_) fun hq => ?_
    · rw [hq, hm] at ha
      cases ha
    · rw [hq, hm] at hb
      cases hb

theorem isUpper_iff : a.isUpper = true ↔ 65 ≤ a.toNat ∧ a.toNat ≤ 90 := by
  show decide (a.val ≥ 'A'.val ∧ a.val ≤ 'Z'.val) = true ↔ _
  simp [UInt32.le_iff_toNat_le, ← Char.toNat_val]

theorem isLower_iff : a.isLower = true ↔ 97 ≤ a.toNat ∧ a.toNat ≤ 122 := by
  show (decide (a.val ≥ 'a'.val) && decide (a.val ≤ 'z'.val)) = true ↔ _
  simp [UInt32.le_iff_toNat_le, ← Char.toNat_val]

theorem isAsciiLetter_iff : isAsciiLetter a = true ↔ a.isUpper = true ∨ a.isLower = true :=
  Bool.or_eq_true_iff

theorem isAscii_of_letter (h : isAsciiLetter a = true) : isAscii a = true := by
  have hlow : a.toNat < 0x80 := by
    rw [isAsciiLetter_iff, isUpper_iff, isLower_iff] at h
    omega
  exact decide_eq_true hlow

theorem Recased.fold_eq (h : Recased a b) : fold a = fold b := by
  rcases h with rfl | ⟨ha, hb, hq⟩
  · rfl
  · rw [fold_of_ascii (isAscii_of_letter ha), fold_of_ascii (isAscii_of_letter hb), hq]

/-- Without regard to case nothing tells two cases of a letter apart. -/
theorem same_recased (h : Recased a b) (c : Char) : same false c a = same false c b := by
  rw [Bool.eq_iff_iff, same_insensitive, same_insensitive, h.fold_eq]

variable {s t : Text}

theorem recased_refl (s : Text) : List.Forall₂ Recased s s :=
  List.forall₂_same.2 fun _ _ => .inl rfl

theorem not_mem_recased (h : List.Forall₂ Recased s t) (hm : isAsciiLetter m = false) (hs : m ∉ s) :
    m ∉ t := by
  induction h with
  | nil => exact hs
  | cons hab _ ih =>
    rw [List.mem_cons, not_or] at hs
    rw [List.mem_cons, not_or]
    refine ⟨fun hq => hs.1 ?_, ih hs.2⟩
    exact ((hab.eq_iff hm).2 hq.symm).symm

theorem head?_recased (h : List.Forall₂ Recased s t) (hm : isAsciiLetter m = false) :
    s.head? = some m ↔ t.head? = some m := by
  cases h with
  | nil => rfl
  | cons hab _ => simpa using hab.eq_iff hm

theorem getLast?_recased (h : List.Forall₂ Recased s t) (hm : isAsciiLetter m = false) :
    s.getLast? = some m ↔ t.getLast? = some m := by
  rw [List.getLast?_eq_head?_reverse, List.getLast?_eq_head?_reverse]
  exact head?_recased (List.forall₂_reverse_iff.2 h) hm

theorem nil_recased (h : List.Forall₂ Recased s t) : s = [] ↔ t = [] := by
  cases h with
  | nil => rfl
  | cons => exact iff_of_false (List.cons_ne_nil _ _) (List.cons_ne_nil _ _)

theorem singleton_recased (h : List.Forall₂ Recased s t) (hm : isAsciiLetter m = false) :
    s = [m] ↔ t = [m] := by
  cases h with
  | nil => rfl
  | cons hab hr => rw [List.cons.injEq, List.cons.injEq, hab.eq_iff hm, nil_recased hr]

end Text

namespace Item
variable {before other : Option Char} {s : Text} {item item' : Item} {items others : List Item}

/-- The same item, but for the case of a letter outside sets. -/
inductive Recased : Item → Item → Prop where
  | same (item : Item) : Recased item item
  | char {a b : Char} : Text.Recased a b → Recased (char a) (char b)

theorem Recased.text (h : Recased item item') : List.Forall₂ Text.Recased item.text item'.text := by
  cases h with
  | same item => exact Text.recased_refl _
  | char h => exact .cons h .nil

theorem Recased.separator (h : Recased (.char '/') item) : item = .char '/' := by
  cases h with
  | same => rfl
  | char h => rw [(h.eq_iff (by decide)).1 rfl]

theorem recased_text (h : List.Forall₂ Recased items others) :
    List.Forall₂ Text.Recased (items.flatMap Item.text) (others.flatMap Item.text) :=
  List.rel_flatMap h fun _ _ => Recased.text

/-- **The other case of a letter is as good an item.** -/
theorem Row.recase (h : Row before s items) (hr : List.Forall₂ Recased items others)
    (hb : before.all (· = '/') = other.all (· = '/')) :
    Row other (others.flatMap text) others := by
  induction h generalizing other others with
  | nil =>
    cases hr
    exact .nil
  | @cons before s rest item more hi hm ih =>
    cases hr with
    | @cons _ item' _ more' hitem hmore =>
      have hrest := recased_text hmore
      rw [hm.flatMap_text] at hrest
      cases hitem with
      | same =>
        exact .cons ((hi.congr hb).relay (Text.nil_recased hrest).1
          (Text.head?_recased hrest (by decide)).2) (ih hmore rfl)
      | @char a b hab =>
        cases hi with
        | char h₁ h₂ h₃ =>
          refine .cons (.char ?_ ?_ ?_) (ih hmore ?_)
          · exact fun hq => h₁ ((hab.eq_iff (by decide)).2 hq)
          · exact fun hq => h₂ ((hab.eq_iff (by decide)).2 hq)
          · exact fun hq => h₃ ((hab.eq_iff (by decide)).2 hq)
          · have hsep : a = '/' ↔ b = '/' := hab.eq_iff (by decide)
            simp [Item.text, hsep]

end Item

namespace Pattern
variable {o : Options} {s source other : Text} {c c' : Pattern}

/-- The same source, but for the case of letters outside sets. -/
def Recased (source other : Text) : Prop :=
  ∃ items others, Item.Row none source items ∧ List.Forall₂ Item.Recased items others ∧
    others.flatMap Item.text = other

theorem Recased.text (h : Recased source other) : List.Forall₂ Text.Recased source other := by
  obtain ⟨items, others, hrow, hr, rfl⟩ := h
  have htext := Item.recased_text hr
  rwa [hrow.flatMap_text] at htext

/-! ### Pieces -/

/-- A piece and what is behind its separator make up a row of items. The other case of a letter
in it is the other case in the one or the other. -/
theorem exists_row_behind {before : Option Char} {u v : Text} {own back : List Item}
    (hb : before.all (· = '/') = true) (hown : Item.Row none u own) (hu : '/' ∉ u)
    (hback : Item.Row (some '/') v back) :
    ∃ items, Item.Row before (u ++ '/' :: v) items ∧
      ∀ others, List.Forall₂ Item.Recased items others → ∃ own' back',
        List.Forall₂ Item.Recased own own' ∧ List.Forall₂ Item.Recased back back' ∧
          others.flatMap Item.text = own'.flatMap Item.text ++ '/' :: back'.flatMap Item.text := by
  rcases Item.deep_or_plain hown hu with ⟨rfl, rfl⟩ | hplain
  · refine ⟨.deep true :: back, .cons (.deep hb) hback, fun others hr => ?_⟩
    cases hr with
    | cons hdeep hr =>
      cases hdeep
      exact ⟨[.deep false], _, .cons (.same _) .nil, hr, rfl⟩
  · refine ⟨own ++ .char '/' :: back, hown.extend hplain (by simp) hback.separator, fun others hr => ?_⟩
    have hown' := (List.forall₂_take_append _ _ _ hr.flip).flip
    have hmore := (List.forall₂_drop_append _ _ _ hr.flip).flip
    rw [← List.take_append_drop own.length others, List.flatMap_append]
    cases hrest : others.drop own.length with
    | nil =>
      rw [hrest] at hmore
      cases hmore
    | cons sep back' =>
      rw [hrest] at hmore
      obtain ⟨hsep, hback'⟩ := List.forall₂_cons.1 hmore
      rw [hsep.separator]
      exact ⟨_, back', hown', hback', rfl⟩

/-- Pieces that are rows of items make up a row of items, and the other case of a letter in it is
the other case in the piece where the letter stands. -/
theorem exists_row_of_pieces (before : Option Char) (hb : before.all (· = '/') = true)
    (h : ∀ piece ∈ List.splitOn '/' s, ∃ own, Item.Row none piece own) :
    ∃ items, Item.Row before s items ∧ ∀ others, List.Forall₂ Item.Recased items others →
      List.Forall₂ Recased (List.splitOn '/' s) (List.splitOn '/' (others.flatMap Item.text)) := by
  -- The letters of a piece stay in it, for no letter is a separator.
  have hinner : ∀ {u own own'}, '/' ∉ u → Item.Row none u own → List.Forall₂ Item.Recased own own' →
      '/' ∉ own'.flatMap Item.text := fun hu hown hr =>
    Text.not_mem_recased (Recased.text ⟨_, _, hown, hr, rfl⟩) (by decide) hu
  generalize hp : List.splitOn '/' s = ps at h
  induction ps generalizing before s with
  | nil => exact absurd hp (List.splitOn_ne_nil '/' s)
  | cons piece ps ih =>
    obtain ⟨⟨own, hown⟩, hps⟩ := List.forall_mem_cons.1 h
    by_cases hs : '/' ∈ s
    · obtain ⟨u, v, rfl, hu⟩ := List.eq_append_cons_of_mem hs
      rw [List.splitOn_append_cons_self_of_not_mem hu] at hp
      obtain ⟨rfl, rfl⟩ := List.cons.inj hp
      obtain ⟨back, hback, hrecased⟩ := ih (some '/') rfl rfl hps
      obtain ⟨items, hrow, hitems⟩ := exists_row_behind hb hown hu hback
      refine ⟨items, hrow, fun others hr => ?_⟩
      obtain ⟨own', back', hown', hback', htext⟩ := hitems others hr
      rw [htext, List.splitOn_append_cons_self_of_not_mem (hinner hu hown hown')]
      exact .cons ⟨_, _, hown, hown', rfl⟩ (hrecased _ hback')
    · rw [List.splitOn_eq_singleton hs] at hp
      obtain ⟨rfl, rfl⟩ := List.cons.inj hp
      refine ⟨own, hown.congr hb.symm, fun others hr => ?_⟩
      rw [List.splitOn_eq_singleton (hinner hs hown hr)]
      exact .cons ⟨_, _, hown, hr, rfl⟩ .nil

/-- The pieces of the other source are those of the source with letters in the other case. -/
theorem Recased.pieces (h : Recased source other)
    (hp : ∀ piece ∈ List.splitOn '/' source, ∃ own, Item.Row none piece own) :
    List.Forall₂ Recased (List.splitOn '/' source) (List.splitOn '/' other) := by
  obtain ⟨items, others, hrow, hr, rfl⟩ := h
  obtain ⟨_, hrow', hpieces⟩ := exists_row_of_pieces none rfl hp
  exact hpieces others (hrow.unique hrow' ▸ hr)

/-- Nothing becomes a name and no name is lost. -/
theorem Recased.namesOf (h : Recased source other)
    (hp : ∀ piece ∈ List.splitOn '/' source, ∃ own, Item.Row none piece own) :
    List.Forall₂ Recased (Path.namesOf source) (Path.namesOf other) := by
  refine List.rel_filter (fun n n' hn => ?_) (h.pieces hp)
  have hnil : n = [] ↔ n' = [] := Text.nil_recased hn.text
  have hdot : n = ['.'] ↔ n' = ['.'] := Text.singleton_recased hn.text (by decide)
  simp [hnil, hdot]

end Pattern

/-! ### Tokens -/

namespace Token
variable {o : Options} {t u : Token} {ts us : List Token}

/-- The same token, but for the case of a letter. -/
inductive Recased : Token → Token → Prop where
  | same (t : Token) : Recased t t
  | char {a b : Char} : Text.Recased a b → Recased (char a) (char b)

theorem Recased.eq_deep_iff (h : Recased t u) : t = deep ↔ u = deep := by
  cases h with
  | same => rfl
  | char => exact iff_of_false nofun nofun

theorem Recased.eq_run_iff (h : Recased t u) : t = run ↔ u = run := by
  cases h with
  | same => rfl
  | char => exact iff_of_false nofun nofun

theorem Recased.isChar_eq (h : Recased t u) : t.isChar = u.isChar := by
  cases h <;> rfl

theorem Recased.covers_eq (h : Recased t u) (hcase : o.caseSensitive = false) (lead : Bool) (c : Char) :
    t.covers o lead c = u.covers o lead c := by
  cases h with
  | same => rfl
  | char hab =>
    rw [covers, covers, hcase]
    exact Text.same_recased hab c

theorem recased_of_item {item item' : Item} (h : Item.Recased item item') :
    Recased item.token item'.token := by
  cases h with
  | same => exact .same _
  | char hab => exact .char hab

theorem merged_recased (h : List.Forall₂ Recased ts us) :
    List.Forall₂ Recased (merged ts) (merged us) := by
  induction h with
  | nil => exact .nil
  | @cons t u ts us htu hmore ih =>
    have hhead : ts.head? = some deep ↔ us.head? = some deep := by
      cases hmore with
      | nil => rfl
      | cons h _ => simpa using h.eq_deep_iff
    by_cases hrow : t = deep ∧ ts.head? = some deep
    · rw [hrow.1, htu.eq_deep_iff.1 hrow.1, merged_cons_of_deep hrow.2,
        merged_cons_of_deep (hhead.1 hrow.2)]
      exact ih
    · rw [merged_cons fun ht hd => hrow ⟨ht, hd⟩,
        merged_cons fun hu hd => hrow ⟨htu.eq_deep_iff.2 hu, hhead.2 hd⟩]
      exact .cons htu ih

/-! ### Attempts -/

/-- The tokens are wildcards of the same kind, or take alike what `r` relates. -/
structure Agree (o : Options) (r : Char → Char → Prop) (t u : Token) : Prop where
  run : t = run ↔ u = run
  deep : t = deep ↔ u = deep
  covers : ∀ lead c d, r c d → t.covers o lead c = u.covers o lead d

variable {r : Char → Char → Prop} {isDeep : Bool} {next next' : Bool → Text → Verdict}

theorem grow_agree (hmark : ∀ c d m, r c d → m = '.' ∨ m = '/' → (c == m) = (d == m))
    (hnext : ∀ lead s s', List.Forall₂ r s s' → next lead s = next' lead s')
    {s s' : Text} (hs : List.Forall₂ r s s') (lead : Bool) :
    grow o isDeep next lead s = grow o isDeep next' lead s' := by
  induction hs generalizing lead with
  | nil => exact hnext lead [] [] .nil
  | @cons c d s s' hcd hs ih =>
    rw [grow, grow, hmark c d '.' hcd (.inl rfl), hmark c d '/' hcd (.inr rfl), hnext _ s s' hs, ih]

/-- Where the tokens agree every attempt ends in the same way. -/
theorem matchFrom_agree (hmark : ∀ c d m, r c d → m = '.' ∨ m = '/' → (c == m) = (d == m))
    (h : List.Forall₂ (Agree o r) ts us) (lead : Bool) (s s' : Text) (hs : List.Forall₂ r s s') :
    matchFrom o ts lead s = matchFrom o us lead s' := by
  induction h generalizing lead s s' with
  | nil => cases hs <;> rfl
  | @cons t u ts us htu _ ih =>
    by_cases hr : t = run
    · rw [hr, htu.run.1 hr, matchFrom, matchFrom, sweep, sweep, ih lead s s' hs,
        grow_agree hmark ih hs]
    by_cases hd : t = deep
    · rw [hd, htu.deep.1 hd, matchFrom, matchFrom, sweep, sweep, ih lead s s' hs,
        grow_agree hmark ih hs]
    have hr' : u ≠ run := fun hq => hr (htu.run.2 hq)
    have hd' : u ≠ deep := fun hq => hd (htu.deep.2 hq)
    cases hs with
    | nil => rw [matchFrom_nil hr hd, matchFrom_nil hr' hd']
    | @cons c d s s' hcd hs =>
      rw [matchFrom_cons hr hd, matchFrom_cons hr' hd', htu.covers lead c d hcd,
        hmark c d '/' hcd (.inr rfl), ih _ s s' hs]

theorem Recased.agree (h : Recased t u) (hcase : o.caseSensitive = false) : Agree o Eq t u where
  run := h.eq_run_iff
  deep := h.eq_deep_iff
  covers := fun lead c _ hcd => hcd ▸ h.covers_eq hcase lead c

/-- **Without regard to case the other case of letters matches as the one does.** -/
theorem matchFrom_recased (hcase : o.caseSensitive = false) (h : List.Forall₂ Recased ts us) :
    matchFrom o ts = matchFrom o us := by
  funext lead s
  have hagree : List.Forall₂ (Agree o Eq) ts us := h.imp fun _ _ htu => htu.agree hcase
  exact matchFrom_agree (fun c d m hcd _ => by rw [hcd]) hagree lead s s
    (List.forall₂_same.2 fun _ _ => rfl)

end Token

namespace Pattern
variable {o : Options} {c c' : Pattern}

/-- Patterns of such sources have the same tokens, but for the case of letters. -/
theorem tokens_recased (h : Recased c.source c'.source) :
    List.Forall₂ Token.Recased c.tokens c'.tokens := by
  obtain ⟨items, others, hrow, hr, htext⟩ := h
  obtain ⟨_, hitems, htokens⟩ := c.exists_row
  obtain ⟨_, hothers, htokens'⟩ := c'.exists_row
  obtain rfl := hrow.unique hitems
  obtain rfl := (htext ▸ hrow.recase hr rfl : Item.Row none c'.source others).unique hothers
  rw [← htokens, ← htokens']
  apply Token.merged_recased
  rw [List.forall₂_map_left_iff, List.forall₂_map_right_iff]
  exact hr.imp fun _ _ => Token.recased_of_item

theorem isRecursive_recased (h : Recased c.source c'.source) : c.isRecursive = c'.isRecursive := by
  have hmap : c.tokens.map (· == .deep) = c'.tokens.map (· == .deep) :=
    map_eq_of_forall₂ (tokens_recased h) fun t u htu => by
      rw [Bool.eq_iff_iff, beq_iff_eq, beq_iff_eq, htu.eq_deep_iff]
  have hany := congrArg (List.any · id) hmap
  rwa [List.any_map, List.any_map] at hany

theorem isLiteral_recased (h : Recased c.source c'.source) : c.isLiteral = c'.isLiteral := by
  have hmap : c.tokens.map Token.isChar = c'.tokens.map Token.isChar :=
    map_eq_of_forall₂ (tokens_recased h) fun t u htu => htu.isChar_eq
  have hall := congrArg (List.all · id) hmap
  rwa [List.all_map, List.all_map] at hall

/-- Without regard to case such patterns cover the same texts. -/
theorem covers_recased (hcase : o.caseSensitive = false) (h : Recased c.source c'.source) :
    c.covers o = c'.covers o := by
  funext text
  rw [covers, covers, Token.matchFrom_recased hcase (tokens_recased h)]

end Pattern
end PathGlob
