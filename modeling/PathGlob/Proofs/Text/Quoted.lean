import Mathlib
import PathGlob.Text.Quoted

/-! What is written can be read back.

A way of writing is readable if what is written of a value tells the value, and where it ends,
whatever stands behind (`Readable`). So is what is written in rows, as long as nothing that is
written looks like what stands behind the row (`Readable.flatMap`). A quoted character is read
back by `readChar`, and it never starts with the quote, so a quoted text is readable: no text can
end its own quotation (`readable_quoted`). -/
namespace PathGlob.Text

/-! ### Readable values -/

section
variable {α β : Type} {write : α → Text} {told : α → β} {s t x y : Text} {c : Char}

/-- What is written of a value tells what is to be known of it, and where it ends. -/
def Readable (write : α → Text) (told : α → β) : Prop :=
  ∀ ⦃a b x y⦄, write a ++ x = write b ++ y → told a = told b ∧ x = y

theorem Readable.of_read {read : Text → Option (β × Text)}
    (h : ∀ a x, read (write a ++ x) = some (told a, x)) : Readable write told := by
  intro a b x y hq
  have hread := (h a x).symm.trans ((congrArg read hq).trans (h b y))
  exact Prod.mk.inj (Option.some.inj hread)

/-- A row of values is readable, as what stands behind it is not what is written of a value. -/
theorem Readable.flatMap (h : Readable write told) (hx : ∀ a z, x ≠ write a ++ z)
    (hy : ∀ a z, y ≠ write a ++ z) {as bs : List α}
    (hq : as.flatMap write ++ x = bs.flatMap write ++ y) : as.map told = bs.map told ∧ x = y := by
  induction as generalizing bs with
  | nil =>
    cases bs with
    | nil => exact ⟨rfl, hq⟩
    | cons b bs => exact absurd (hq.trans (List.append_assoc ..)) (hx b _)
  | cons a as ih =>
    cases bs with
    | nil => exact absurd (hq.symm.trans (List.append_assoc ..)) (hy a _)
    | cons b bs =>
      rw [List.flatMap_cons, List.flatMap_cons, List.append_assoc, List.append_assoc] at hq
      obtain ⟨htold, hrest⟩ := h hq
      obtain ⟨hmap, hend⟩ := ih hrest
      exact ⟨List.cons_eq_cons.2 ⟨htold, hmap⟩, hend⟩

/-- A text is told by a character behind it that it does not hold. -/
theorem eq_of_ended (hs : c ∉ s) (ht : c ∉ t) (hq : s ++ c :: x = t ++ c :: y) : s = t ∧ x = y := by
  have hpieces := congrArg (List.splitOn c) hq
  rw [List.splitOn_append_cons_self_of_not_mem hs,
    List.splitOn_append_cons_self_of_not_mem ht] at hpieces
  obtain rfl := (List.cons.inj hpieces).1
  exact ⟨rfl, (List.cons.inj (List.append_cancel_left hq)).2⟩

end

/-! ### Characters in quotes -/

/-- The number that hexadecimal digits stand for. -/
def ofHex (digits : Text) : Nat :=
  digits.foldl (fun n c => n * 16 + (if c.isDigit then c.toNat - 48 else c.toNat - 87)) 0

theorem ofHex_hex (n width : Nat) : ofHex (hex n width) = n % 16 ^ width := by
  have hdigit : ∀ m < 16, (if (Nat.digitChar m).isDigit then (Nat.digitChar m).toNat - 48
      else (Nat.digitChar m).toNat - 87) = m := by decide
  induction width generalizing n with
  | zero => exact (Nat.mod_one n).symm
  | succ width ih =>
    have happend : ofHex (hex (n / 16) width ++ [Nat.digitChar (n % 16)]) =
        ofHex (hex (n / 16) width) * 16 + n % 16 := by
      rw [ofHex, List.foldl_append, List.foldl_cons, List.foldl_nil,
        hdigit _ (Nat.mod_lt n (by decide))]
      rfl
    rw [hex, happend, ih, Nat.pow_succ, Nat.mul_comm (16 ^ width), Nat.mod_mul]
    omega

/-- How many digits stand behind a mark. -/
def digitsBehind (mark : Char) : Nat :=
  if mark = 'x' then 2 else if mark = 'u' then 4 else if mark = 'U' then 8 else 0

/-- The character that a mark and the digits behind it stand for. -/
def meant (mark : Char) (digits : Text) : Char :=
  if mark = 'n' then '\n'
  else if mark = 'r' then '\r'
  else if mark = 't' then '\t'
  else if digits = [] then mark
  else .ofNat (ofHex digits)

/-- The quoted character at the front of a text, and what stands behind it. -/
def readChar : Text → Option (Char × Text)
  | [] => none
  | c :: rest =>
    if c = backslash then
      match rest with
      | [] => none
      | mark :: rest =>
        let width := digitsBehind mark
        some (meant mark (rest.take width), rest.drop width)
    else some (c, rest)

/-- The quotes that a text may stand in. -/
def IsQuote (quote : Char) : Prop := quote = singleQuote ∨ quote = doubleQuote

theorem isQuote_quoteFor (s : Text) : IsQuote (quoteFor s) := by
  rw [quoteFor]
  split
  · exact .inr rfl
  · exact .inl rfl

variable {quote c : Char}

theorem readChar_hex {mark : Char} {width : Nat} (hwidth : digitsBehind mark = width)
    (hpos : 0 < width) (hmark : mark ≠ 'n' ∧ mark ≠ 'r' ∧ mark ≠ 't')
    (hc : c.toNat < 16 ^ width) (x : Text) :
    readChar (backslash :: mark :: (hex c.toNat width ++ x)) = some (c, x) := by
  have hlen := length_hex c.toNat width
  have hne : hex c.toNat width ≠ [] := List.length_pos_iff.1 (by rwa [hlen])
  rw [readChar, if_pos rfl]
  simp only [hwidth]
  rw [List.take_left' hlen, List.drop_left' hlen, meant, if_neg hmark.1, if_neg hmark.2.1,
    if_neg hmark.2.2, if_neg hne, ofHex_hex, Nat.mod_eq_of_lt hc, Char.ofNat_toNat]

/-- A quoted character is read back, whatever stands behind it. -/
theorem readChar_quotedChar (hquote : IsQuote quote) (c : Char) (x : Text) :
    readChar (quotedChar quote c ++ x) = some (c, x) := by
  rw [quotedChar]
  split
  case isTrue h =>
    have hc : c = singleQuote ∨ c = doubleQuote ∨ c = backslash := by
      rcases Bool.or_eq_true_iff.1 h with h | h
      · rw [of_decide_eq_true h]
        exact hquote.imp_right .inl
      · exact .inr (.inr (of_decide_eq_true h))
    rcases hc with rfl | rfl | rfl <;> rfl
  split
  case isTrue h => rw [h]; rfl
  split
  case isTrue h => rw [h]; rfl
  split
  case isTrue h => rw [h]; rfl
  split
  case isTrue hback _ _ _ _ =>
    have hne : c ≠ backslash := fun hq => hback (by simp [hq])
    exact if_neg hne
  split
  case isTrue h => exact readChar_hex rfl (by decide) (by decide) h x
  split
  case isTrue h => exact readChar_hex rfl (by decide) (by decide) h x
  have hlt : c.toNat < 16 ^ 8 := c.val.toNat_lt
  exact readChar_hex rfl (by decide) (by decide) hlt x

theorem readable_quotedChar (hquote : IsQuote quote) : Readable (quotedChar quote) id :=
  .of_read (readChar_quotedChar hquote)

/-- No quoted character looks like the quote. -/
theorem ne_quotedChar (hquote : IsQuote quote) (c : Char) (x z : Text) :
    quote :: x ≠ quotedChar quote c ++ z := by
  intro hq
  have hne : quote ≠ backslash := by
    rintro rfl
    exact absurd hquote (by unfold IsQuote; decide)
  have hfront : readChar (quote :: x) = some (quote, x) := if_neg hne
  have hread := hfront.symm.trans ((congrArg readChar hq).trans (readChar_quotedChar hquote c z))
  obtain ⟨rfl, rfl⟩ := Prod.mk.inj (Option.some.inj hread)
  have hlen := congrArg List.length hq
  simp [quotedChar] at hlen

/-! ### What quotation leaves to be seen -/

theorem printable_hex (n width : Nat) : (hex n width).printable = true := by
  have hdigit : ∀ m < 16, printable [Nat.digitChar m] = true := fun m hm =>
    printable_of_ascii ((show ∀ m < 16, [Nat.digitChar m].all
      (fun c => 0x20 ≤ c.toNat && c.toNat < 0x7F) = true by decide) m hm)
  induction width generalizing n with
  | zero => rfl
  | succ width ih =>
    rw [hex, printable_append, ih, hdigit _ (Nat.mod_lt n (by decide))]
    rfl

theorem printable_quotedChar (hquote : IsQuote quote) (c : Char) :
    (quotedChar quote c).printable = true := by
  have hcode : ∀ (mark : Char) (width : Nat), printable [backslash, mark] = true →
      printable (backslash :: mark :: hex c.toNat width) = true := by
    intro mark width hmark
    exact (printable_append [backslash, mark] _).trans (by rw [hmark, printable_hex]; rfl)
  rw [quotedChar]
  split
  case isTrue h =>
    have hc : c = singleQuote ∨ c = doubleQuote ∨ c = backslash := by
      rcases Bool.or_eq_true_iff.1 h with h | h
      · rw [of_decide_eq_true h]
        exact hquote.imp_right .inl
      · exact .inr (.inr (of_decide_eq_true h))
    rcases hc with rfl | rfl | rfl <;> exact printable_of_ascii rfl
  split
  · exact printable_of_ascii rfl
  split
  · exact printable_of_ascii rfl
  split
  · exact printable_of_ascii rfl
  split
  case isTrue h => exact (Bool.and_true _).trans h
  split
  · exact hcode 'x' 2 (printable_of_ascii rfl)
  split
  · exact hcode 'u' 4 (printable_of_ascii rfl)
  · exact hcode 'U' 8 (printable_of_ascii rfl)

/-- Whatever a text holds, its quotation is printable. -/
theorem printable_quoted (s : Text) : s.quoted.printable = true := by
  have hquote := isQuote_quoteFor s
  have hmark : printable [quoteFor s] = true := by
    rcases hquote with h | h <;> exact h ▸ printable_of_ascii rfl
  have hbody : printable (s.flatMap (quotedChar (quoteFor s))) = true :=
    (List.all_flatMap ..).trans (List.all_eq_true.2 fun c _ => printable_quotedChar hquote c)
  rw [quoted, ← List.singleton_append, List.append_assoc, printable_append, printable_append, hmark, hbody]
  rfl

/-! ### Texts in quotes -/

/-- **A quoted text is told by its quotation, whatever stands behind it.** -/
theorem readable_quoted : Readable quoted id := by
  intro s t x y hq
  rw [quoted, quoted, List.cons_append, List.cons_append, List.append_assoc, List.append_assoc] at hq
  obtain ⟨hquote, hq⟩ := List.cons.inj hq
  rw [← hquote] at hq
  have hs := isQuote_quoteFor s
  obtain ⟨hchars, hend⟩ := (readable_quotedChar hs).flatMap
    (fun c z => ne_quotedChar hs c x z) (fun c z => ne_quotedChar hs c y z) hq
  rw [List.map_id, List.map_id] at hchars
  exact ⟨hchars, (List.cons.inj hend).2⟩

end PathGlob.Text
