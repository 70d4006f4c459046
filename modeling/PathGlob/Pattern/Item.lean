import PathGlob.Pattern.Token

/-! The grammar of patterns: a source is a row of items.

An item is `?`, `*`, `**` with the separator after it, a set in brackets, or any
other character. `Item.read` takes the first item off a source, and the item's text
and what follows are the source again (`text_append_of_read`). Reading stops at the
first item that cannot be completed. -/
namespace PathGlob

/-- Why a source is no pattern. -/
inductive Flaw where
  /-- Three stars or more in a row. -/
  | starRow
  /-- `**` beside other characters of its component. -/
  | deepBeside
  /-- A set without a member or without its closing bracket. -/
  | openSet
deriving DecidableEq

structure PatternError where
  flaw : Flaw
  position : Nat
deriving DecidableEq

def Flaw.explanation : Flaw → Text
  | starRow => "wildcards are either regular `*` or recursive `**`".toList
  | deepBeside => "recursive wildcards must form a single path component".toList
  | openSet => "invalid range pattern".toList

def PatternError.message (e : PatternError) : Text :=
  "Pattern syntax error near position ".toList ++ (toString e.position).toList ++
    ": ".toList ++ e.flaw.explanation

/-- What comes of an outcome that is changed comes of it as it was. -/
theorem map_eq_ok {ε α β : Type} {f : α → β} {x : Except ε α} {b : β} :
    x.map f = .ok b ↔ ∃ a, x = .ok a ∧ f a = b := by
  cases x <;> simp [Except.map]

theorem map_eq_error {ε α β : Type} {f : α → β} {x : Except ε α} {e : ε} :
    x.map f = .error e ↔ x = .error e := by
  cases x <;> simp [Except.map]

inductive Item where
  | char (c : Char)
  | one
  | run
  /-- `**`, with the separator that follows it, if one does. -/
  | deep (separated : Bool)
  | bracket (negated : Bool) (body : Text)
deriving DecidableEq

namespace Item

def text : Item → Text
  | char c => [c]
  | one => ['?']
  | run => ['*']
  | deep separated => if separated then ['*', '*', '/'] else ['*', '*']
  | bracket negated body => (if negated then ['[', '!'] else ['[']) ++ body ++ [']']

/-- The members of a set: `x-y` wherever three characters allow it, else one character. -/
def spans : Text → List Span
  | low :: '-' :: high :: rest => ⟨low, high⟩ :: spans rest
  | c :: rest => .single c :: spans rest
  | [] => []

def token : Item → Token
  | char c => .char c
  | one => .one
  | run => .run
  | deep _ => .deep
  | bracket negated body => .bracket ⟨spans body, negated⟩

/-! ### Reading -/

/-- A set whose first member is `x`, even if that is a closing bracket. -/
def readMembers (negated : Bool) (pos : Nat) (x : Char) (s : Text) :
    Except PatternError (Item × Text) :=
  if ']' ∈ s then
    .ok (bracket negated (x :: s.takeWhile (· ≠ ']')), (s.dropWhile (· ≠ ']')).drop 1)
  else .error ⟨.openSet, pos⟩

/-- The set opened at `pos`, from what follows its opening bracket. -/
def readBracket (pos : Nat) : Text → Except PatternError (Item × Text)
  | [] => .error ⟨.openSet, pos⟩
  | x :: s =>
    if x = '!' then match s with
      | [] => .error ⟨.openSet, pos⟩
      | y :: r => readMembers true pos y r
    else readMembers false pos x s

/-- `**` must fill its component: it starts one, and a separator or the end follows. -/
def readDeep (before : Option Char) (pos : Nat) (s : Text) : Except PatternError (Item × Text) :=
  if before.any (· ≠ '/') then .error ⟨.deepBeside, pos - 1⟩
  else match s with
    | [] => .ok (deep false, [])
    | c :: r => if c = '/' then .ok (deep true, r) else .error ⟨.deepBeside, pos + 2⟩

/-- The stars at `pos`, from what follows the first of them. -/
def readStars (before : Option Char) (pos : Nat) : Text → Except PatternError (Item × Text)
  | '*' :: '*' :: _ => .error ⟨.starRow, pos + 2⟩
  | '*' :: s => readDeep before pos s
  | s => .ok (run, s)

/-- The first item of `c :: s`, which stands at `pos` behind `before`, and what follows it. -/
def read (before : Option Char) (pos : Nat) (c : Char) (s : Text) :
    Except PatternError (Item × Text) :=
  if c = '?' then .ok (one, s)
  else if c = '*' then readStars before pos s
  else if c = '[' then readBracket pos s
  else .ok (char c, s)

theorem takeWhile_append_close {s : Text} (h : ']' ∈ s) :
    s.takeWhile (· ≠ ']') ++ ']' :: (s.dropWhile (· ≠ ']')).drop 1 = s := by
  induction s with
  | nil => simp at h
  | cons c s ih =>
    by_cases hc : c = ']'
    · simp [hc]
    · have hs : ']' ∈ s := by simpa [Ne.symm hc] using h
      simpa [hc] using ih hs

theorem text_append_of_readMembers {negated : Bool} {pos : Nat} {x : Char} {s rest : Text}
    {item : Item} (h : readMembers negated pos x s = .ok (item, rest)) :
    item.text ++ rest = (if negated then ['[', '!'] else ['[']) ++ x :: s := by
  unfold readMembers at h
  split at h
  · rename_i hs
    simp only [Except.ok.injEq, Prod.mk.injEq] at h
    obtain ⟨rfl, rfl⟩ := h
    simpa [text] using takeWhile_append_close hs
  · simp at h

theorem text_append_of_readBracket {pos : Nat} {s rest : Text} {item : Item}
    (h : readBracket pos s = .ok (item, rest)) : item.text ++ rest = '[' :: s := by
  unfold readBracket at h
  split at h
  · simp at h
  · rename_i x s
    split at h
    · rename_i hx
      split at h
      · simp at h
      · simpa [hx] using text_append_of_readMembers h
    · simpa using text_append_of_readMembers h

theorem text_append_of_readDeep {before : Option Char} {pos : Nat} {s rest : Text} {item : Item}
    (h : readDeep before pos s = .ok (item, rest)) : item.text ++ rest = '*' :: '*' :: s := by
  unfold readDeep at h
  split at h
  · simp at h
  · split at h
    · simp only [Except.ok.injEq, Prod.mk.injEq] at h
      obtain ⟨rfl, rfl⟩ := h
      rfl
    · split at h
      · rename_i hc
        simp only [Except.ok.injEq, Prod.mk.injEq] at h
        obtain ⟨rfl, rfl⟩ := h
        simp [text, hc]
      · simp at h

theorem text_append_of_readStars {before : Option Char} {pos : Nat} {s rest : Text} {item : Item}
    (h : readStars before pos s = .ok (item, rest)) : item.text ++ rest = '*' :: s := by
  unfold readStars at h
  split at h
  · simp at h
  · exact text_append_of_readDeep h
  · simp only [Except.ok.injEq, Prod.mk.injEq] at h
    obtain ⟨rfl, rfl⟩ := h
    rfl

/-- An item is read off the front of the source: nothing is skipped or added. -/
theorem text_append_of_read {before : Option Char} {pos : Nat} {c : Char} {s rest : Text}
    {item : Item} (h : read before pos c s = .ok (item, rest)) : item.text ++ rest = c :: s := by
  unfold read at h
  split at h
  · rename_i hc
    simp only [Except.ok.injEq, Prod.mk.injEq] at h
    obtain ⟨rfl, rfl⟩ := h
    simp [text, hc]
  · split at h
    · rename_i hc
      simpa [hc] using text_append_of_readStars h
    · split at h
      · rename_i hc
        simpa [hc] using text_append_of_readBracket h
      · simp only [Except.ok.injEq, Prod.mk.injEq] at h
        obtain ⟨rfl, rfl⟩ := h
        rfl

theorem text_ne_nil (item : Item) : item.text ≠ [] := by
  cases item with
  | deep separated => cases separated <;> simp [text]
  | bracket negated body => cases negated <;> simp [text]
  | _ => simp [text]

theorem length_lt_of_read {before : Option Char} {pos : Nat} {c : Char} {s rest : Text}
    {item : Item} (h : read before pos c s = .ok (item, rest)) : rest.length < s.length + 1 := by
  have h₁ := congrArg List.length (text_append_of_read h)
  have h₂ := List.length_pos_iff.2 item.text_ne_nil
  simp only [List.length_append, List.length_cons] at h₁
  omega

/-- The items of a source from `pos` on, behind `before`. -/
def readAll (before : Option Char) (pos : Nat) : Text → Except PatternError (List Item)
  | [] => .ok []
  | c :: s =>
    match _h : read before pos c s with
    | .error e => .error e
    | .ok (item, rest) =>
      (readAll item.text.getLast? (pos + item.text.length) rest).map (item :: ·)
termination_by s => s.length
decreasing_by exact length_lt_of_read ‹_›

theorem readAll_nil (before : Option Char) (pos : Nat) : readAll before pos [] = .ok [] := by
  rw [readAll]

/-- A source is read when its first item is and so is what follows it. -/
theorem readAll_cons {before : Option Char} {pos : Nat} {c : Char} {s : Text}
    {items : List Item} :
    readAll before pos (c :: s) = .ok items ↔
      ∃ item rest more, read before pos c s = .ok (item, rest) ∧
        readAll item.text.getLast? (pos + item.text.length) rest = .ok more ∧
        items = item :: more := by
  rw [readAll]
  split
  · rename_i e he
    simp [he]
  · rename_i item rest hr
    simp only [hr, map_eq_ok, Except.ok.injEq, Prod.mk.injEq]
    constructor
    · rintro ⟨more, hm, rfl⟩
      exact ⟨item, rest, more, ⟨rfl, rfl⟩, hm, rfl⟩
    · rintro ⟨_, _, more, ⟨rfl, rfl⟩, hm, rfl⟩
      exact ⟨more, hm, rfl⟩

end Item
end PathGlob
