import PathGlob.Proofs.Pattern.Matching
import PathGlob.Proofs.Walk.Abreast
import PathGlob.Proofs.Walk.Extent

/-! Wildcards that leave separators alone.

The switch for separators is asked about separators only. The names that a walk matches have none,
whatever the tree: a child is its folder with a text joined to it, and a joined path has names
without separators (`Path.Named.join`). So a walk does the same with the switch and without it
(`events_literalSeparator`). It tells only in texts that are matched as a whole. -/
namespace PathGlob
variable {o : Options} {b lead : Bool}

/-! ### One name -/

namespace Token
variable {t : Token} {ts : List Token} {c : Char} {s : Text}

theorem CoversChar.literalSeparator (hc : c ≠ '/') (h : CoversChar o lead c t) :
    CoversChar { o with literalSeparator := b } lead c t := by
  have hfree : Unreserved o lead c → Unreserved { o with literalSeparator := b } lead c :=
    fun h => ⟨fun _ => hc, h.ne_dot⟩
  cases h with
  | char h => exact .char h
  | one h => exact .one (hfree h)
  | within h hs hholds => exact .within (hfree h) hs hholds
  | except h hnone => exact .except (hfree h) hnone

/-- The stretches of a text without separators are stretches whatever the switch says of them. -/
theorem Covers.literalSeparator (hs : '/' ∉ s) (h : Covers o ts lead s) :
    Covers { o with literalSeparator := b } ts lead s := by
  induction h with
  | nil => exact .nil
  | cons ht _ ih =>
    obtain ⟨hc, hmore⟩ := not_or.1 (mt List.mem_cons.2 hs)
    exact .cons (ht.literalSeparator (Ne.symm hc)) (ih hmore)
  | run hu _ ih =>
    obtain ⟨hfree, hmore⟩ := not_or.1 (mt List.mem_append.2 hs)
    exact .run ⟨fun _ => hfree, hu.2⟩ (ih hmore)
  | deep hu _ ih => exact .deep hu (ih fun hmem => hs (List.mem_append_right _ hmem))

end Token

theorem Pattern.covers_literalSeparator (p : Pattern) {name : Text} (hn : '/' ∉ name) :
    p.covers { o with literalSeparator := b } name = p.covers o name := by
  rw [Bool.eq_iff_iff, covers_iff_covers, covers_iff_covers]
  exact ⟨Token.Covers.literalSeparator (b := o.literalSeparator) hn,
    Token.Covers.literalSeparator hn⟩

/-- In a text that is no name the switch tells. -/
example : Token.matchFrom {} [.run] true "a/b".toList = .matched ∧
    Token.matchFrom { literalSeparator := true } [.run] true "a/b".toList = .stuck := by
  decide

theorem Live.advance_literalSeparator (cs : List Pattern) (live : Live) {name : Text}
    (hn : '/' ∉ name) :
    advance { o with literalSeparator := b } cs name live = advance o cs name live := by
  have htakes : takes { o with literalSeparator := b } cs name = takes o cs name := by
    funext i j
    unfold takes
    cases cs[i]? with
    | none => rfl
    | some c => simp only [c.covers_literalSeparator hn]
  rw [advance, advance, htakes]

/-! ### The walk -/

namespace Plan
variable {p : Plan} {d : Disk}

theorem events_setSeparator (hroot : p.root.Named) (b : Bool) :
    { p with options := { p.options with literalSeparator := b } }.events d = p.events d := by
  refine events_congr (P := fun t => (t.top p).Named) (fun t ht => ?_)
    (fun t ht u hu => Task.named_next ht hu) hroot rfl
  cases t with
  | start => rfl
  | visit child live =>
    have hname : '/' ∉ child.path.name := Path.Named.not_mem_name ht
    simp only [Task.run, Live.advance_literalSeparator p.components live hname]
    rfl
  | expand folder live => rfl

end Plan

/-- **Whether wildcards cover separators makes no difference to a walk.** A source is refused with
the switch as it is without, and if it is not, all is asked and found in the same order. -/
theorem events_literalSeparator (o : Options) (source : Text) (d : Disk) :
    (Plan.ofSource { o with literalSeparator := true } source).map (·.events d) =
      (Plan.ofSource { o with literalSeparator := false } source).map (·.events d) := by
  rw [Plan.ofSource_options o { o with literalSeparator := true },
    Plan.ofSource_options o { o with literalSeparator := false }]
  cases h : Plan.ofSource o source with
  | error e => rfl
  | ok p =>
    have hp := Plan.named_of_ofSource h
    obtain rfl : p.options = o := (Plan.parts_of_ofSource h).options_eq
    have hsame : ∀ b, _ = p.events d := Plan.events_setSeparator hp.root
    exact congrArg Except.ok ((hsame true).trans (hsame false).symm)

end PathGlob
