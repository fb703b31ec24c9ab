import Mathlib
import ToneWatch.Proofs.Feed
import ToneWatch.Proofs.Morse.Edges

namespace ToneWatch.Morse

/-- Whether one of two symbols that follow each other is a mark. -/
def Symbol.Apart (a b : Symbol) : Prop := a.isMark = true ∨ b.isMark = true

namespace Phase

/-- How an observation moves a phase, with the symbol that it completes. -/
inductive Moves : Phase → Option Symbol → Phase → Prop
  | waits (p : Phase) : Moves p none p
  | counts {units : Nat} {ended : Bool} (h : units = endUnits → ended = true) :
      Moves (.silence units ended) none (.silence (units + 1) ended)
  | ends : Moves (.silence endUnits false) (some .endOfTransmission) (.silence (endUnits + 1) true)
  | rises {units n : Nat} {ended : Bool} (h : units ≤ n) :
      Moves (.silence units ended) (gap? n ended) (.tone 1)
  | lasts {units : Nat} : Moves (.tone units) none (.tone (units + 1))
  | falls {units : Nat} (m : Mark) : Moves (.tone units) (some (.mark m)) (.silence 1 false)

/-- Whether a silence has ended the transmission exactly if it is longer than that takes. -/
def Regular : Phase → Prop
  | .silence units ended => ended = true ↔ endUnits < units
  | .tone _ => True

/-- Whether only a mark can be completed next: in a tone, and in a silence that has ended the
transmission. -/
def owesMark : Phase → Bool
  | .silence _ ended => ended
  | .tone _ => true

variable {p p' : Phase} {o : Option Symbol}

theorem Moves.regular (h : Moves p o p') (hp : p.Regular) : p'.Regular := by
  cases h with
  | waits => exact hp
  | @counts units ended h =>
    have hp : ended = true ↔ endUnits < units := hp
    have hgoal : ended = true ↔ endUnits < units + 1 := by
      constructor
      · intro he
        exact Nat.lt_succ_of_lt (hp.mp he)
      · intro hlt
        obtain hlt | heq := Nat.lt_or_eq_of_le (Nat.le_of_lt_succ hlt)
        · exact hp.mpr hlt
        · exact h heq.symm
    exact hgoal
  | ends => exact ⟨fun _ => Nat.lt_succ_self _, fun _ => rfl⟩
  | rises => trivial
  | lasts => trivial
  | falls => exact ⟨fun h => absurd h Bool.false_ne_true, fun h => absurd h (by decide)⟩

/-- Where a mark is owed no gap is completed, and a gap leaves a mark owing. -/
theorem Moves.owes (h : Moves p o p') (hp : p.Regular) :
    (∀ s ∈ o, p.owesMark = true → s.isMark = true) ∧
      (∀ s ∈ o, s.isMark = false → p'.owesMark = true) ∧
      (o = none → p.owesMark = true → p'.owesMark = true) := by
  cases h with
  | waits => exact ⟨by simp, by simp, fun _ h => h⟩
  | counts => exact ⟨by simp, by simp, fun _ h => h⟩
  | ends => exact ⟨fun _ _ h => absurd h Bool.false_ne_true, fun _ _ _ => rfl, by simp⟩
  | @rises units n ended h =>
    refine ⟨?_, fun _ _ _ => rfl, fun _ _ => rfl⟩
    intro s hs howes
    have he : ended = true := howes
    have hlt : endUnits < units := hp.mp he
    rw [he, gap?_true (by omega)] at hs
    cases hs
  | lasts => exact ⟨by simp, by simp, fun _ _ => rfl⟩
  | falls m =>
    refine ⟨?_, ?_, by simp⟩
    · intro s hs _
      rw [← Option.some.inj hs]
      rfl
    · intro s hs hmark
      rw [← Option.some.inj hs] at hmark
      cases hmark

end Phase

namespace RunTimer

theorem step_moves (t : RunTimer) (tone : Bool) :
    t.phase.Moves (t.step tone).2 (t.step tone).1.phase := by
  obtain ⟨timing, recent, phase⟩ := t
  unfold step
  dsimp only
  split
  · exact .waits phase
  · cases phase with
    | silence units ended =>
      dsimp only
      split_ifs with hrise hlong hends
      · exact .rises (Nat.le_add_right _ _)
      · obtain ⟨rfl, rfl⟩ : units = endUnits ∧ ended = false := by simpa using hends
        exact .ends
      · have hnot : ¬ (units = endUnits ∧ ended = false) := by simpa using hends
        rw [Bool.eq_false_iff.mpr hends, Bool.or_false]
        exact .counts fun hu => by simpa using fun he => hnot ⟨hu, he⟩
      · exact .waits _
    | tone units =>
      dsimp only
      split_ifs
      · exact .falls _
      · exact .lasts
      · exact .waits _

/-- Whatever is observed, the symbols that a timer completes are never two gaps in a row. -/
theorem feed_apart (t : RunTimer) (ht : t.phase.Regular) (tones : List Bool) :
    (feed step t tones).2.IsChain Symbol.Apart ∧
      (t.phase.owesMark = true → ∀ s ∈ (feed step t tones).2.head?, s.isMark = true) := by
  induction tones generalizing t with
  | nil => exact ⟨.nil, by simp⟩
  | cons tone tones ih =>
    have hm := step_moves t tone
    obtain ⟨hmark, hgap, hnone⟩ := hm.owes ht
    obtain ⟨hchain, hhead⟩ := ih (t.step tone).1 (hm.regular ht)
    rw [feed_cons]
    cases ho : (t.step tone).2 with
    | none => exact ⟨hchain, fun h => hhead (hnone ho h)⟩
    | some s =>
      rw [ho] at hmark hgap
      constructor
      · refine List.isChain_cons.mpr ⟨?_, hchain⟩
        intro later hl
        cases hs : s.isMark with
        | true => exact .inl hs
        | false => exact .inr (hhead (hgap s rfl hs) later hl)
      · intro howes first hfirst
        rw [← Option.some.inj hfirst]
        exact hmark s rfl howes

theorem regular_ofTiming (t : Timing) : (ofTiming t).phase.Regular :=
  ⟨fun h => absurd h Bool.false_ne_true, fun h => absurd h (Nat.not_lt_zero _)⟩

end RunTimer

end ToneWatch.Morse
