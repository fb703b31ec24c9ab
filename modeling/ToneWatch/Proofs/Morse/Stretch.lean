import Mathlib
import ToneWatch.Morse.RunTimer
import ToneWatch.Proofs.Feed
import ToneWatch.Proofs.History
/-!
A run timer seen through the log of its stretch, which is everything observed since the last edge. The
counter and the history of the timer are functions of that log: what the history forgets, the counter
counts. So a timer takes edges as if it kept the whole log, and measures a stretch to the nearest unit.
-/

namespace ToneWatch.Morse

namespace Timing

variable (t : Timing)

/-- The whole units nearest to a number of observations. -/
def nearest (count : Nat) : Nat := (count + t.unit / 2) / t.unit

/-- Whether a tone starts a unit before the end of a log, latest first. -/
def Rises (log : List Bool) : Prop :=
  t.unit ≤ log.length ∧ t.on ≤ (log.take t.unit).countP id ∧ log[t.unit - 1]? = some true

/-- Whether a silence starts a unit before the end of a log, latest first. -/
def Falls (log : List Bool) : Prop :=
  t.unit ≤ log.length ∧ (log.take t.unit).countP id < t.off ∧ log[t.unit - 1]? = some false

instance (log : List Bool) : Decidable (t.Rises log) :=
  inferInstanceAs (Decidable (_ ∧ _ ∧ _))

instance (log : List Bool) : Decidable (t.Falls log) :=
  inferInstanceAs (Decidable (_ ∧ _ ∧ _))

/-- The units that the history has forgotten of a stretch without an edge. -/
def forgotten (count : Nat) : Nat := count / t.unit - 1

/-- What the history keeps of a stretch without an edge. -/
def kept (count : Nat) : Nat := count - t.forgotten count * t.unit

/-- The observations after which a silence ends the transmission, if so many units were counted
before them. -/
def endAfter (counted : Nat) : Nat := (endUnits + 2 - counted) * t.unit

variable {t}

theorem forgotten_add_kept (count : Nat) : t.forgotten count * t.unit + t.kept count = count := by
  have h : t.forgotten count * t.unit ≤ count :=
    (Nat.mul_le_mul_right _ (Nat.sub_le _ _)).trans (Nat.div_mul_le_self _ _)
  unfold kept
  omega

theorem kept_le (count : Nat) : t.kept count ≤ count := Nat.sub_le _ _

theorem kept_of_lt {count : Nat} (h : count < t.unit) : t.kept count = count := by
  simp [kept, forgotten, Nat.div_eq_of_lt h]

theorem kept_of_le (hu : 0 < t.unit) {count : Nat} (h : t.unit ≤ count) :
    t.kept count = t.unit + count % t.unit := by
  have hq : 1 ≤ count / t.unit := (Nat.one_le_div_iff hu).mpr h
  have hm := Nat.div_add_mod count t.unit
  have hs : t.forgotten count * t.unit = t.unit * (count / t.unit) - t.unit := by
    rw [forgotten, Nat.sub_mul, Nat.one_mul, Nat.mul_comm]
  have hle : t.unit ≤ t.unit * (count / t.unit) := Nat.le_mul_of_pos_right _ hq
  unfold kept
  omega

theorem kept_lt (hu : 0 < t.unit) (count : Nat) : t.kept count < 2 * t.unit := by
  by_cases h : count < t.unit
  · rw [kept_of_lt h]
    omega
  · rw [kept_of_le hu (by omega)]
    have hm := Nat.mod_lt count hu
    omega

theorem unit_le_kept_iff (hu : 0 < t.unit) (count : Nat) :
    t.unit ≤ t.kept count ↔ t.unit ≤ count := by
  by_cases h : count < t.unit
  · rw [kept_of_lt h]
  · rw [kept_of_le hu (by omega)]
    omega

/-- A unit is forgotten when the history would hold two, and only then. -/
theorem kept_succ (hu : 0 < t.unit) (count : Nat) :
    (t.kept count + 1 = 2 * t.unit →
      t.kept (count + 1) = t.unit ∧ t.forgotten (count + 1) = t.forgotten count + 1) ∧
    (t.kept count + 1 ≠ 2 * t.unit →
      t.kept (count + 1) = t.kept count + 1 ∧ t.forgotten (count + 1) = t.forgotten count) := by
  have hk := forgotten_add_kept (t := t) count
  have hl := forgotten_add_kept (t := t) (count + 1)
  by_cases h : count < t.unit
  · rw [kept_of_lt h]
    have hf : t.forgotten count = 0 := by simp [forgotten, Nat.div_eq_of_lt h]
    have hd : (count + 1) / t.unit ≤ 1 := by
      have := Nat.div_le_div_right (c := t.unit) (show count + 1 ≤ t.unit by omega)
      rwa [Nat.div_self hu] at this
    have hg : t.forgotten (count + 1) = 0 := by unfold forgotten; omega
    rw [hg] at hl ⊢
    rw [hf]
    omega
  · rw [kept_of_le hu (show t.unit ≤ count by omega),
      kept_of_le hu (show t.unit ≤ count + 1 by omega)]
    have hq : 1 ≤ count / t.unit := (Nat.one_le_div_iff hu).mpr (by omega)
    have hd : (count + 1) / t.unit = count / t.unit + if t.unit ∣ count + 1 then 1 else 0 :=
      Nat.succ_div
    have hm := Nat.mod_lt count hu
    unfold forgotten
    constructor
    · intro hc
      have hz : (count + 1) % t.unit = 0 := by
        rw [Nat.add_mod, show count % t.unit = t.unit - 1 by omega]
        by_cases h1 : t.unit = 1
        · simp [h1]
        · rw [Nat.mod_eq_of_lt (show 1 < t.unit by omega), Nat.sub_add_cancel hu, Nat.mod_self]
      rw [if_pos (Nat.dvd_of_mod_eq_zero hz)] at hd
      omega
    · intro hc
      have hz : (count + 1) % t.unit = count % t.unit + 1 := by
        rw [Nat.add_mod, Nat.mod_eq_of_lt (a := 1) (show 1 < t.unit by omega)]
        exact Nat.mod_eq_of_lt (by omega)
      rw [if_neg (fun hv => by have := Nat.mod_eq_zero_of_dvd hv; omega)] at hd
      omega

theorem kept_of_mul (hu : 0 < t.unit) {count k : Nat} (hk : 2 ≤ k) (h : count + 1 = k * t.unit) :
    t.kept count + 1 = 2 * t.unit := by
  by_contra hc
  have hs := ((kept_succ hu count).2 hc).1
  have h2 : 2 * t.unit ≤ k * t.unit := Nat.mul_le_mul_right _ hk
  rw [kept_of_le hu (show t.unit ≤ count + 1 by omega), h, Nat.mul_mod_left] at hs
  have hl := unit_le_kept_iff hu count
  omega

theorem nearest_eq (hu : 0 < t.unit) (count : Nat) :
    t.nearest (count + 1) = t.forgotten count + (t.kept count + 1 + t.unit / 2) / t.unit := by
  have h := forgotten_add_kept (t := t) count
  have he : count + 1 + t.unit / 2 =
      t.kept count + 1 + t.unit / 2 + t.forgotten count * t.unit := by omega
  rw [nearest, he, Nat.add_mul_div_right _ _ hu, Nat.add_comm]

end Timing

namespace RunTimer

variable {t : Timing}

def historyOf (t : Timing) (log : List Bool) : History Bool :=
  { window := t.unit, newest := log.take (t.kept log.length) }

/-- A timer in a silence that has lasted for a log, after so many units counted beforehand. -/
def waiting (t : Timing) (counted : Nat) (log : List Bool) : RunTimer :=
  { timing := t
    recent := historyOf t log
    phase := .silence (counted + t.forgotten log.length)
      (decide (t.endAfter counted ≤ log.length)) }

/-- A timer in a tone that has lasted for a log. -/
def sounding (t : Timing) (log : List Bool) : RunTimer :=
  { timing := t, recent := historyOf t log, phase := .tone (1 + t.forgotten log.length) }

theorem ofTiming_eq_waiting (hu : 0 < t.unit) : ofTiming t = waiting t 0 [] := by
  have hw : max t.unit 1 = t.unit := by omega
  have he : ¬ t.endAfter 0 ≤ 0 := by simp [Timing.endAfter, endUnits]; omega
  simp [ofTiming, waiting, historyOf, History.ofWindow, Timing.forgotten, hw, he]

theorem size_historyOf (log : List Bool) : (historyOf t log).size = t.kept log.length := by
  simp [historyOf, History.size, Timing.kept_le]

def pushed (t : Timing) (log : List Bool) (b : Bool) : History Bool :=
  { window := t.unit, newest := b :: log.take (t.kept log.length) }

theorem historyOf_push (hu : 0 < t.unit) (log : List Bool) (b : Bool) :
    (historyOf t log).push b = pushed t log b := by
  apply History.push_of_room
  rw [size_historyOf]
  exact Timing.kept_lt hu log.length

theorem clear_pushed (log : List Bool) (b : Bool) : (pushed t log b).clear = historyOf t [] := by
  simp [pushed, History.clear, historyOf]

abbrev noting (t : Timing) (phase : Phase) (log : List Bool) (b : Bool) : RunTimer :=
  { timing := t, recent := pushed t log b, phase }

theorem size_pushed (log : List Bool) (b : Bool) :
    (pushed t log b).size = t.kept log.length + 1 := by
  simp [pushed, History.size, Timing.kept_le]

theorem unit_le_pushed (hu : 0 < t.unit) (log : List Bool) (b : Bool) :
    t.unit ≤ (pushed t log b).size ↔ t.unit ≤ log.length + 1 := by
  have hk := Timing.unit_le_kept_iff hu log.length
  rw [size_pushed]
  by_cases h : log.length < t.unit
  · rw [Timing.kept_of_lt h]
  · omega

theorem isOverdue_noting (phase : Phase) (log : List Bool) (b : Bool) :
    (noting t phase log b).isOverdue = decide (t.kept log.length + 1 = 2 * t.unit) := by
  rw [isOverdue, size_pushed]

/-- The newest unit is there whole as soon as it has been observed. -/
theorem take_pushed (hu : 0 < t.unit) (log : List Bool) (b : Bool) :
    (pushed t log b).newest.take t.unit = (b :: log).take t.unit := by
  have hk := Timing.unit_le_kept_iff hu log.length
  obtain ⟨u, hv⟩ : ∃ u, t.unit = u + 1 := ⟨t.unit - 1, by omega⟩
  rw [pushed, hv, List.take_succ_cons, List.take_succ_cons, List.take_take]
  congr 1
  rw [List.take_eq_take_iff]
  have hl := Timing.kept_le (t := t) log.length
  by_cases h : log.length < t.unit
  · rw [Timing.kept_of_lt h]
    omega
  · omega

theorem tones_noting (hu : 0 < t.unit) (phase : Phase) (log : List Bool) (b : Bool) :
    (noting t phase log b).tones = ((b :: log).take t.unit).countP id := by
  have h := take_pushed hu log b
  simp only [tones, History.latest, List.countP_reverse]
  rw [← h]

theorem unitStart_noting (hu : 0 < t.unit) (phase : Phase) (log : List Bool) (b : Bool)
    (h : t.unit ≤ log.length + 1) :
    (b :: log)[t.unit - 1]? = some (noting t phase log b).unitStart := by
  have ht := take_pushed hu log b
  have hn := (unit_le_pushed hu log b).mpr h
  have hg : (pushed t log b).newest[t.unit - 1]? = (b :: log)[t.unit - 1]? := by
    have he := congrArg (fun l => l[t.unit - 1]?) ht
    simpa [List.getElem?_take, hu] using he
  have hb : t.unit - 1 < (b :: log).length := by
    rw [List.length_cons]
    omega
  have hi : (noting t phase log b).unitStart = ((b :: log)[t.unit - 1]?).getD false := by
    rw [← hg, ← History.get?_size_sub _ hu hn]
    rfl
  rw [hi, List.getElem?_eq_getElem hb, Option.getD_some]

theorem noting_waiting (hu : 0 < t.unit) {counted : Nat} (hc : counted ≤ 1) (log : List Bool)
    (b : Bool) (h : t.kept log.length + 1 ≠ 2 * t.unit) :
    noting t (waiting t counted log).phase log b = waiting t counted (b :: log) ∧
      log.length + 1 ≠ t.endAfter counted := by
  have hk := (Timing.kept_succ hu log.length).2 h
  have hn : log.length + 1 ≠ t.endAfter counted := by
    intro he
    exact h (Timing.kept_of_mul hu (by simp only [endUnits]; omega) he)
  have hd : t.endAfter counted ≤ log.length ↔ t.endAfter counted ≤ log.length + 1 := by omega
  refine ⟨?_, hn⟩
  simp [pushed, waiting, historyOf, hk.1, hk.2, hd]

/-- An overdue observation counts a unit, and the tenth one in a silence after a tone ends the
transmission. -/
theorem overdue_waiting (hu : 0 < t.unit) {counted : Nat} (hc : counted ≤ 1) (log : List Bool)
    (h : t.kept log.length + 1 = 2 * t.unit) :
    (counted + t.forgotten log.length = endUnits ↔ log.length + 1 = t.endAfter counted) ∧
    (t.endAfter counted ≤ log.length + 1 ↔
      t.endAfter counted ≤ log.length ∨ counted + t.forgotten log.length = endUnits) := by
  have hf := Timing.forgotten_add_kept (t := t) log.length
  have hm : log.length + 1 = (t.forgotten log.length + 2) * t.unit := by
    rw [Nat.add_mul]
    omega
  have heq : log.length + 1 = t.endAfter counted ↔
      t.forgotten log.length + 2 = endUnits + 2 - counted := by
    rw [hm, Timing.endAfter]
    exact ⟨fun he => Nat.eq_of_mul_eq_mul_right hu he, fun he => by rw [he]⟩
  have hend : endUnits = 9 := rfl
  omega

theorem noting_sounding (hu : 0 < t.unit) (log : List Bool) (b : Bool)
    (h : t.kept log.length + 1 ≠ 2 * t.unit) :
    noting t (sounding t log).phase log b = sounding t (b :: log) := by
  have hk := (Timing.kept_succ hu log.length).2 h
  simp [pushed, sounding, historyOf, hk.1, hk.2]

theorem compact_pushed (hu : 0 < t.unit) (log : List Bool) (b : Bool)
    (h : t.kept log.length + 1 = 2 * t.unit) :
    (pushed t log b).compact = historyOf t (b :: log) := by
  have hk := (Timing.kept_succ hu log.length).1 h
  have ht := take_pushed hu log b
  rw [historyOf, List.length_cons, hk.1, ← ht]
  rfl

/-- Looking back over the newest unit shows what the whole log shows. -/
theorem edge_noting (hu : 0 < t.unit) (phase : Phase) (log : List Bool) (b : Bool)
    (h : t.unit ≤ log.length + 1) :
    (t.Rises (b :: log) ↔ t.on ≤ (noting t phase log b).tones ∧
      (noting t phase log b).unitStart = true) ∧
    (t.Falls (b :: log) ↔ (noting t phase log b).tones < t.off ∧
      (noting t phase log b).unitStart = false) := by
  have hs := unitStart_noting hu phase log b h
  rw [Timing.Rises, Timing.Falls, hs, tones_noting hu]
  simp [h]

theorem measured (hu : 0 < t.unit) (phase : Phase) (log : List Bool) (b : Bool) (counted : Nat)
    (h : t.unit ≤ log.length + 1) :
    counted + t.forgotten log.length + ((noting t phase log b).spanned - 1) =
      counted + t.nearest (log.length + 1) - 1 := by
  have hn := Timing.nearest_eq hu log.length
  have hs : (noting t phase log b).spanned = (t.kept log.length + 1 + t.unit / 2) / t.unit := by
    rw [spanned, size_pushed]
  have hk := (unit_le_pushed hu log b).mpr h
  rw [size_pushed] at hk
  have h1 : 1 ≤ (noting t phase log b).spanned := by
    rw [hs, Nat.one_le_div_iff hu]
    omega
  omega

theorem step_silence (hu : 0 < t.unit) (log : List Bool) (b : Bool) (units : Nat) (ended : Bool) :
    step { timing := t, recent := historyOf t log, phase := .silence units ended } b =
      if t.Rises (b :: log) then
        (sounding t [],
          gap? (units + ((noting t (.silence units ended) log b).spanned - 1)) ended)
      else if t.kept log.length + 1 = 2 * t.unit then
        let ends := units = endUnits && !ended
        ({ timing := t
           recent := historyOf t (b :: log)
           phase := .silence (units + 1) (ended || ends) },
          if ends then some .endOfTransmission else none)
      else (noting t (.silence units ended) log b, none) := by
  have hz := unit_le_pushed hu log b
  have hend : sounding t [] = { timing := t, recent := historyOf t [], phase := .tone 1 } := by
    simp [sounding, Timing.forgotten]
  rw [step]
  simp only [historyOf_push hu, clear_pushed, isOverdue_noting, hend]
  by_cases hl : log.length + 1 < t.unit
  · have hr : ¬ t.Rises (b :: log) := fun h => Nat.not_le_of_lt hl h.1
    have hk : ¬ t.kept log.length + 1 = 2 * t.unit := by
      rw [Timing.kept_of_lt (show log.length < t.unit by omega)]
      omega
    rw [if_pos (by omega), if_neg hr, if_neg hk]
  · have hle : t.unit ≤ log.length + 1 := by omega
    obtain ⟨hr, -⟩ := edge_noting hu (.silence units ended) log b hle
    rw [if_neg (by omega)]
    by_cases he : t.Rises (b :: log)
    · have h := hr.mp he
      rw [if_pos he, if_pos (by simpa using h)]
    · have h := mt hr.mpr he
      rw [if_neg he, if_neg (by simpa using h)]
      by_cases ho : t.kept log.length + 1 = 2 * t.unit
      · simp only [ho, decide_true, if_true, compact_pushed hu _ _ ho]
      · simp only [ho, decide_false, if_false, Bool.false_eq_true]

/-- A silence either ends in the rise of a tone, which is measured by the whole log, or grows; it ends
the transmission by itself at one moment. -/
theorem step_waiting (hu : 0 < t.unit) {counted : Nat} (hc : counted ≤ 1) (log : List Bool)
    (b : Bool) :
    (waiting t counted log).step b =
      if t.Rises (b :: log) then
        (sounding t [],
          gap? (counted + t.nearest (log.length + 1) - 1) (decide (t.endAfter counted ≤ log.length)))
      else
        (waiting t counted (b :: log),
          if log.length + 1 = t.endAfter counted then some .endOfTransmission else none) := by
  rw [waiting, step_silence hu]
  by_cases hr : t.Rises (b :: log)
  · rw [if_pos hr, if_pos hr, measured hu _ log b counted (by simpa using hr.1)]
  · rw [if_neg hr, if_neg hr]
    by_cases ho : t.kept log.length + 1 = 2 * t.unit
    · obtain ⟨he, hg⟩ := overdue_waiting hu hc log ho
      have hf := ((Timing.kept_succ hu log.length).1 ho).2
      rw [if_pos ho]
      simp only [waiting, List.length_cons, hf, ← he, decide_eq_decide.mpr hg]
      by_cases hx : t.endAfter counted ≤ log.length
      · have hne : counted + t.forgotten log.length ≠ endUnits := by omega
        simp [hx, hne, Nat.add_assoc]
      · simp [hx, Nat.add_assoc]
    · obtain ⟨hw, he⟩ := noting_waiting hu hc log b ho
      rw [if_neg ho, if_neg he, ← hw]
      rfl

/-- A tone either ends in the fall of a silence, which is measured by the whole log, or grows. -/
theorem step_sounding (hu : 0 < t.unit) (log : List Bool) (b : Bool) :
    (sounding t log).step b =
      if t.Falls (b :: log) then
        (waiting t 1 [], some (.mark (markOf (t.nearest (log.length + 1)))))
      else (sounding t (b :: log), none) := by
  have hz := unit_le_pushed hu log b
  have hend : waiting t 1 [] =
      { timing := t, recent := historyOf t [], phase := .silence 1 false } := by
    have he : t.endAfter 1 ≠ 0 := by simp [Timing.endAfter, endUnits]; omega
    simp [waiting, Timing.forgotten, he]
  rw [step]
  simp only [sounding, historyOf_push hu, clear_pushed, isOverdue_noting, hend]
  by_cases hl : log.length + 1 < t.unit
  · have hf : ¬ t.Falls (b :: log) := fun h => Nat.not_le_of_lt hl h.1
    have hk : t.kept log.length + 1 ≠ 2 * t.unit := by
      rw [Timing.kept_of_lt (show log.length < t.unit by omega)]
      omega
    rw [if_pos (by omega), if_neg hf]
    exact congrArg (·, none) (noting_sounding hu log b hk)
  · have hle : t.unit ≤ log.length + 1 := by omega
    obtain ⟨-, hf⟩ := edge_noting hu (sounding t log).phase log b hle
    have hm := measured hu (sounding t log).phase log b 1 hle
    simp only [sounding] at hf hm
    rw [if_neg (by omega)]
    by_cases he : t.Falls (b :: log)
    · have h := hf.mp he
      rw [if_pos he, if_pos (by simpa using h), hm, Nat.add_sub_cancel_left]
    · have h := mt hf.mpr he
      rw [if_neg he, if_neg (by simpa using h)]
      by_cases ho : t.kept log.length + 1 = 2 * t.unit
      · have hk := ((Timing.kept_succ hu log.length).1 ho).2
        simp only [ho, decide_true, if_true, compact_pushed hu _ _ ho, List.length_cons, hk,
          Nat.add_assoc]
      · have hg := noting_sounding hu log b ho
        simp only [ho, decide_false, if_false, Bool.false_eq_true]
        exact congrArg (·, none) hg

end RunTimer

end ToneWatch.Morse
