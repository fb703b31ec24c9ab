import Mathlib
import ToneWatch.Proofs.Morse.Drift
import ToneWatch.Proofs.Morse.UnitLength

namespace ToneWatch.Morse

/-- Whether a run belongs to a letter and does not separate it from the next one. -/
def Run.isInner (r : Run) : Bool := r.on || decide (r.units ≤ 1)

/-- Whether observations are those of runs, but for one miss in each letter, which is spent if it lies
before the runs. Any observation of a tone can be the one that is missed. -/
inductive Run.HeardByLetter (perUnit : Nat) : Bool → List Run → List Bool → Prop
  | nil {spent : Bool} : HeardByLetter perUnit spent [] []
  | whole {spent : Bool} {r : Run} {rs : List Run} {tones : List Bool}
      (h : HeardByLetter perUnit (spent && r.isInner) rs tones) :
      HeardByLetter perUnit spent (r :: rs) (List.replicate (r.units * perUnit) r.on ++ tones)
  | missed {r : Run} {rs : List Run} {tones : List Bool} (hr : r.on = true) {i : Nat}
      (hi : i < r.units * perUnit) (h : HeardByLetter perUnit true rs tones) :
      HeardByLetter perUnit false (r :: rs)
        ((List.replicate (r.units * perUnit) true).set i false ++ tones)

/-- Whether observations are those of a plan, but for one miss in each letter. -/
def Keying.HeardByLetter (perUnit : Nat) (k : Keying) (tones : List Bool) : Prop :=
  Run.HeardByLetter perUnit false k.toList tones

namespace Run.HeardByLetter

variable {perUnit : Nat} {spent : Bool} {tones : List Bool}

theorem states (perUnit : Nat) (spent : Bool) (rs : List Run) :
    HeardByLetter perUnit spent rs
      (rs.flatMap fun r => List.replicate (r.units * perUnit) r.on) := by
  induction rs generalizing spent with
  | nil => exact .nil
  | cons r rs ih => exact .whole (ih _)

theorem of_silence {units : Nat} {rs : List Run}
    (h : HeardByLetter perUnit spent (⟨false, units⟩ :: rs) tones) :
    ∃ left, tones = List.replicate (units * perUnit) false ++ left ∧
      HeardByLetter perUnit (spent && decide (units ≤ 1)) rs left := by
  cases h with
  | whole h => exact ⟨_, rfl, h⟩
  | missed hr hi h => cases hr

theorem beat (b : Beat) {rs : List Run}
    (h : HeardByLetter perUnit (spent && decide (b.rest ≤ 1)) rs tones) :
    HeardByLetter perUnit spent (b.runs ++ rs)
      (List.replicate (b.tone * perUnit) true ++
        (List.replicate (b.rest * perUnit) false ++ tones)) := by
  obtain ⟨m, rest⟩ := b
  cases m <;> exact .whole (.whole (by simpa [isInner, Symbol.run] using h))

theorem of_beat (b : Beat) {rs : List Run} (h : HeardByLetter perUnit spent (b.runs ++ rs) tones) :
    (∃ left, tones = List.replicate (b.tone * perUnit) true ++
        (List.replicate (b.rest * perUnit) false ++ left) ∧
      HeardByLetter perUnit (spent && decide (b.rest ≤ 1)) rs left) ∨
    (spent = false ∧ ∃ i < b.tone * perUnit, ∃ left,
      tones = (List.replicate (b.tone * perUnit) true).set i false ++
        (List.replicate (b.rest * perUnit) false ++ left) ∧
      HeardByLetter perUnit (decide (b.rest ≤ 1)) rs left) := by
  have hon : (Symbol.mark b.mark).run.on = true := by
    cases b.mark <;> rfl
  rw [Beat.runs, List.cons_append, List.cons_append, List.nil_append] at h
  generalize hrun : (Symbol.mark b.mark).run = r at h hon
  have htone : b.tone = r.units := by rw [Beat.tone, hrun]
  rw [htone]
  cases h with
  | whole h =>
    left
    have hspent : (spent && r.isInner) = spent := by simp [isInner, hon]
    rw [hspent] at h
    obtain ⟨left, rfl, hleft⟩ := h.of_silence
    exact ⟨left, by rw [hon], hleft⟩
  | missed hr hi h =>
    right
    obtain ⟨left, rfl, hleft⟩ := h.of_silence
    exact ⟨rfl, _, hi, left, rfl, by simpa using hleft⟩

end Run.HeardByLetter

theorem Keying.heardByLetter_states {perUnit : Nat} {k : Keying}
    (h : ∀ r ∈ k.toList, r.units * perUnit < 2 ^ 64) : k.HeardByLetter perUnit (k.states perUnit) := by
  rw [states_of_lt h]
  exact .states perUnit false k.toList

variable {t : Timing}

namespace Timing

/-- A silence is read as it was meant, although it begins and ends at most so much early or late. -/
theorem spacing_about (ht : t.Tolerant) {rest count : Nat} (hr : rest = 1 ∨ rest = 3 ∨ rest = 7)
    (hle : rest * t.unit ≤ count + t.off)
    (hge : count ≤ rest * t.unit + t.off ∨ rest ≠ 1 ∧ count ≤ rest * t.unit + t.off + 1) :
    spacing? (t.nearest count) = spacing? rest := by
  obtain ⟨h1, h2⟩ := ht
  apply spacing_of_near (by omega)
  obtain rfl | rfl | rfl := hr <;> omega

end Timing

/-- Whether observations are those of a mark from its rise to its fall, which a unit of tone begins. -/
structure Keys (t : Timing) (m : Mark) (first last : List Bool) : Prop where
  length : first.length = t.unit
  starts : first[0]? = some true
  on_le : t.on ≤ first.countP id
  falls : feed RunTimer.step (RunTimer.sounding t []) last = (RunTimer.waiting t 1 [], [.mark m])

/-- A mark is read although its rise is late by less than the threshold of silence. It falls late by no
more, whatever comes instead of the silence it then lacks. -/
theorem exists_keys_late (ht : t.Tolerant) (b : Beat) {late : Nat} (hl : late < t.off) :
    ∃ short ≤ late, ∀ next : Bool, ∃ first last, Keys t b.mark first last ∧
      List.replicate (b.tone * t.unit - late) true ++
        (List.replicate t.unit false ++ List.replicate short next) = first ++ last := by
  obtain ⟨h1, h2⟩ := ht
  have htone : b.tone = 1 ∧ b.tone * t.unit = t.unit ∨ b.tone = 3 ∧ b.tone * t.unit = 3 * t.unit :=
    b.tone_eq.imp (fun h => ⟨h, by rw [h, Nat.one_mul]⟩) fun h => ⟨h, by rw [h]⟩
  generalize b.tone * t.unit = tone at htone
  have hmark : markOf (t.nearest (tone - late - t.unit + t.unit)) = b.mark :=
    Timing.mark_of_near (by omega) b (by omega) (by omega)
  refine ⟨t.unit - (tone - late), by omega, fun next => ?_⟩
  obtain ⟨hlen, hs, hc⟩ := RunTimer.rising_first h1 (i := min t.unit (tone - late))
    (j := t.unit - (tone - late)) (by omega) (by omega) (by omega)
  refine ⟨_, List.replicate (tone - late - t.unit) true ++
    (List.replicate (t.unit - (t.unit - (tone - late))) false ++
      List.replicate (t.unit - (tone - late)) next), ⟨hlen, hs, hc, ?_⟩, ?_⟩
  · cases next with
    | true => rw [RunTimer.feed_short_silence _ _ _ (by omega) (by omega) (by omega), hmark]
    | false =>
      have hfall := RunTimer.feed_short_silence (tone - late - t.unit) t.unit 0 (by omega) (by omega) h1
      rw [List.replicate_zero, List.append_nil, hmark] at hfall
      rw [← List.replicate_add, Nat.sub_add_cancel (by omega), hfall]
  · rw [← List.append_assoc, replicate_overlap true false _ _ t.unit (by omega)]
    simp only [List.append_assoc]

/-- A mark with a miss behind its first observation falls in time or early. -/
theorem exists_keys_missed (ht : t.Tolerant) (b : Beat) {i : Nat} (h0 : 0 < i)
    (hi : i < b.tone * t.unit) :
    ∃ early ≤ t.off, ∃ first last, Keys t b.mark first last ∧
      (List.replicate (b.tone * t.unit) true).set i false ++ List.replicate (t.unit - early) false =
        first ++ last := by
  have hrun : (Symbol.mark b.mark).run.on = true := by
    cases b.mark <;> rfl
  obtain ⟨first, rest, hsplit, hlen, hs, hc, early, hearly, hfall⟩ :=
    RunTimer.feed_heard ht b.mark (.inr ⟨hrun, i, h0, hi, rfl⟩)
  refine ⟨early, hearly, first, _, ⟨hlen, hs, hc, hfall⟩, ?_⟩
  rw [Beat.tone, hsplit, List.append_assoc]

/-- Whether a timer in a silence takes observations for symbols: after so many more silent ones a tone
begins, and from there on it reads the symbols. -/
def Catches (t : Timing) (late : Nat) (heard : List Bool) (symbols : List Symbol) : Prop :=
  ∃ first last, heard = List.replicate late false ++ (first ++ last) ∧
    (first.length = t.unit ∧ first[0]? = some true ∧ t.on ≤ first.countP id) ∧
    (feed RunTimer.step (RunTimer.sounding t []) last).2 = symbols

variable {late silence : Nat} {heard : List Bool} {symbols : List Symbol} {b : Beat} {bs : List Beat}

theorem Catches.later (h : Catches t late heard symbols) :
    Catches t (late + 1) (false :: heard) symbols := by
  obtain ⟨first, last, rfl, hfirst, hlast⟩ := h
  exact ⟨first, last, rfl, hfirst, hlast⟩

/-- A tone that begins late makes the silence before it longer. -/
theorem Catches.feed_silence (h : Catches t late heard symbols) (hu : 0 < t.unit) (quiet : Nat) :
    (feed RunTimer.step (RunTimer.waiting t 1 []) (List.replicate quiet false ++ heard)).2 =
      (spacing? (t.nearest (quiet + late + t.unit))).toList ++ symbols := by
  obtain ⟨first, last, rfl, ⟨hlen, hs, hc⟩, hlast⟩ := h
  rw [← List.append_assoc, ← List.replicate_add, ← List.append_assoc, feed_append,
    RunTimer.feed_silence hu (quiet + late) first hlen hs hc, hlast]

theorem Keys.catches {first last more : List Bool} (hk : Keys t b.mark first last)
    (h : (feed RunTimer.step (RunTimer.waiting t 1 []) more).2 =
      (spacing? b.rest).toList ++ symbols) :
    Catches t 0 (first ++ last ++ more) (b.symbols ++ symbols) := by
  refine ⟨first, last ++ more, by rw [List.append_assoc]; rfl, ⟨hk.length, hk.starts, hk.on_le⟩, ?_⟩
  rw [feed_append, hk.falls, h]
  rfl

/-- What is heard of beats is read with the silence after them. If the miss of the first letter is spent,
its first mark may be late already; else it may be the mark that is missed. -/
structure Readable (t : Timing) (silence : Nat) (bs : List Beat) : Prop where
  spent : ∀ tones, Run.HeardByLetter t.unit true (bs.flatMap Beat.runs) tones → ∀ late < t.off,
    ∃ left, tones = List.replicate late true ++ left ∧
      Catches t 0 (left ++ List.replicate silence false) (bs.flatMap Beat.symbols)
  fresh : ∀ tones, Run.HeardByLetter t.unit false (bs.flatMap Beat.runs) tones → ∃ late ≤ 1,
    Catches t late (tones ++ List.replicate silence false) (bs.flatMap Beat.symbols)

theorem Readable.catches (h : Readable t silence bs) (ho : 0 < t.off) {spent : Bool} {tones : List Bool}
    (hh : Run.HeardByLetter t.unit spent (bs.flatMap Beat.runs) tones) :
    ∃ late ≤ 1, (spent = true → late = 0) ∧
      Catches t late (tones ++ List.replicate silence false) (bs.flatMap Beat.symbols) := by
  cases spent with
  | true =>
    obtain ⟨left, rfl, hcatch⟩ := h.spent tones hh 0 ho
    exact ⟨0, by omega, fun _ => rfl, hcatch⟩
  | false =>
    obtain ⟨late, hlate, hcatch⟩ := h.fresh tones hh
    exact ⟨late, hlate, fun h => (Bool.false_ne_true h).elim, hcatch⟩

/-- What comes after the mark of a beat is read: what the mark has left of the silence, if it fell about
in time, or what it has left of the next tone. -/
structure Continues (t : Timing) (silence : Nat) (b : Beat) (bs : List Beat) : Prop where
  gap : ∀ spent tones, Run.HeardByLetter t.unit spent (bs.flatMap Beat.runs) tones →
    ∀ quiet, b.rest * t.unit ≤ quiet + t.unit + t.off →
      (quiet + t.unit ≤ b.rest * t.unit ∨
        (b.rest = 1 → spent = true) ∧ quiet + t.unit ≤ b.rest * t.unit + t.off) →
      (feed RunTimer.step (RunTimer.waiting t 1 [])
        (List.replicate quiet false ++ (tones ++ List.replicate silence false))).2 =
          (spacing? b.rest).toList ++ bs.flatMap Beat.symbols
  overlap : b.rest = 1 → ∀ tones, Run.HeardByLetter t.unit true (bs.flatMap Beat.runs) tones →
    ∀ late < t.off, ∃ left, tones = List.replicate late true ++ left ∧
      (feed RunTimer.step (RunTimer.waiting t 1 []) (left ++ List.replicate silence false)).2 =
        (spacing? b.rest).toList ++ bs.flatMap Beat.symbols

theorem Continues.last (ht : t.Tolerant) (hn : 2 * t.unit ≤ silence) (m : Mark) :
    Continues t silence ⟨m, 10⟩ [] := by
  obtain ⟨h1, h2⟩ := ht
  refine ⟨?_, fun h => by cases h⟩
  intro spent tones h quiet hle hge
  cases h
  have hend : t.endAfter 1 ≤ quiet + silence := by
    simp only [Timing.endAfter, endUnits] at hle ⊢
    omega
  rw [List.nil_append, ← List.replicate_add, RunTimer.feed_only_silence (by omega) le_rfl,
    if_pos hend]
  rfl

theorem Continues.next (ht : t.Tolerant) (hr : b.rest = 1 ∨ b.rest = 3 ∨ b.rest = 7)
    (h : Readable t silence bs) : Continues t silence b bs := by
  have hu : 0 < t.unit := by
    have := ht.2
    omega
  have h1 := ht.1
  constructor
  · intro spent tones hh quiet hle hge
    obtain ⟨late, hlate, hspent, hcatch⟩ := h.catches h1 hh
    have hend : quiet + late + t.unit ≤ b.rest * t.unit + t.off ∨
        b.rest ≠ 1 ∧ quiet + late + t.unit ≤ b.rest * t.unit + t.off + 1 := by
      obtain hge | ⟨hone, hge⟩ := hge
      · exact .inl (by omega)
      · by_cases h : b.rest = 1
        · have := hspent (hone h)
          exact .inl (by omega)
        · exact .inr ⟨h, by omega⟩
    rw [hcatch.feed_silence hu quiet, Timing.spacing_about ht hr (by omega) hend]
  · intro hone tones hh late hlate
    obtain ⟨left, hleft, hcatch⟩ := h.spent tones hh late hlate
    refine ⟨left, hleft, ?_⟩
    have hfeed := hcatch.feed_silence hu 0
    rwa [Timing.spacing_about ht hr (by rw [hone]; omega) (by rw [hone]; omega)] at hfeed

/-- A mark that takes about a unit of the silence after it leaves enough of it. -/
theorem Continues.behind (h : Continues t silence b bs) {spent : Bool} {tones : List Bool}
    (hh : Run.HeardByLetter t.unit spent (bs.flatMap Beat.runs) tones) {tone first last : List Bool}
    (hk : Keys t b.mark first last) {used : Nat}
    (hsplit : tone ++ List.replicate used false = first ++ last) (hrest : used ≤ b.rest * t.unit)
    (hle : used ≤ t.unit + t.off)
    (hge : t.unit ≤ used ∨ (b.rest = 1 → spent = true) ∧ t.unit ≤ used + t.off) :
    Catches t 0
      (tone ++ (List.replicate (b.rest * t.unit) false ++ tones) ++ List.replicate silence false)
      (b.symbols ++ bs.flatMap Beat.symbols) := by
  have hcatch := hk.catches (h.gap spent tones hh (b.rest * t.unit - used) (by omega)
    (hge.imp (fun h => by omega) fun h => ⟨h.1, by omega⟩))
  have hgap : List.replicate (b.rest * t.unit) false =
      List.replicate used false ++ List.replicate (b.rest * t.unit - used) false := by
    rw [← List.replicate_add, Nat.add_sub_cancel' hrest]
  rw [← hsplit] at hcatch
  rw [hgap]
  simpa only [List.append_assoc] using hcatch

/-- A late mark is read: within a letter it takes from the next one what it lacks of the silence, behind
the letter there is silence enough. -/
theorem Continues.spent (ht : t.Tolerant) (hr : 1 ≤ b.rest) (h : Continues t silence b bs)
    {tones : List Bool} (hh : Run.HeardByLetter t.unit true (b.runs ++ bs.flatMap Beat.runs) tones)
    (hl : late < t.off) :
    ∃ left, tones = List.replicate late true ++ left ∧
      Catches t 0 (left ++ List.replicate silence false) (b.symbols ++ bs.flatMap Beat.symbols) := by
  have h2 := ht.2
  have htone : t.unit ≤ b.tone * t.unit :=
    Nat.le_mul_of_pos_left _ (by have := b.tone_eq; omega)
  have hlate : List.replicate (b.tone * t.unit) true =
      List.replicate late true ++ List.replicate (b.tone * t.unit - late) true := by
    rw [← List.replicate_add, Nat.add_sub_cancel' (by omega)]
  obtain ⟨short, hshort, hkeys⟩ := exists_keys_late ht b hl
  obtain ⟨rest, rfl, hrest⟩ | ⟨hspent, -⟩ := hh.of_beat
  · refine ⟨_, by rw [hlate, List.append_assoc], ?_⟩
    by_cases hone : b.rest = 1
    · obtain ⟨first, last, hk, hsplit⟩ := hkeys true
      rw [hone] at hrest
      obtain ⟨left, rfl, hfeed⟩ := h.overlap hone rest hrest short (by omega)
      have hcatch := hk.catches hfeed
      rw [← hsplit] at hcatch
      rw [hone, Nat.one_mul]
      simpa only [List.append_assoc] using hcatch
    · obtain ⟨first, last, hk, hsplit⟩ := hkeys false
      have hlong : 2 * t.unit ≤ b.rest * t.unit := Nat.mul_le_mul_right _ (by omega)
      rw [← List.replicate_add] at hsplit
      exact h.behind hrest hk hsplit (by omega) (by omega) (.inl (by omega))
  · cases hspent

/-- Whatever a letter misses, its first mark begins at most one observation late. -/
theorem Continues.fresh (ht : t.Tolerant) (ho : 2 ≤ t.off) (hr : 1 ≤ b.rest)
    (h : Continues t silence b bs) {tones : List Bool}
    (hh : Run.HeardByLetter t.unit false (b.runs ++ bs.flatMap Beat.runs) tones) :
    ∃ late ≤ 1, Catches t late (tones ++ List.replicate silence false)
      (b.symbols ++ bs.flatMap Beat.symbols) := by
  have hle : t.unit ≤ b.rest * t.unit := Nat.le_mul_of_pos_left _ hr
  obtain ⟨rest, rfl, hrest⟩ | ⟨-, i, hi, rest, rfl, hrest⟩ := hh.of_beat
  · obtain ⟨short, hshort, hkeys⟩ := exists_keys_late ht b (show 0 < t.off by omega)
    obtain ⟨first, last, hk, hsplit⟩ := hkeys false
    obtain rfl : short = 0 := by omega
    rw [Nat.sub_zero, List.replicate_zero, List.append_nil] at hsplit
    exact ⟨0, by omega, h.behind hrest hk hsplit hle (by omega) (.inl le_rfl)⟩
  obtain rfl | h0 := Nat.eq_zero_or_pos i
  · obtain ⟨left, hleft, hcatch⟩ := h.spent ht hr (.beat b hrest) (show 1 < t.off by omega)
    have hmissed := congrArg (·.set 0 false) hleft
    rw [List.set_append_left _ _ (by simpa using hi)] at hmissed
    refine ⟨1, le_rfl, ?_⟩
    rw [hmissed]
    exact hcatch.later
  · obtain ⟨early, hearly, first, last, hk, hsplit⟩ := exists_keys_missed ht b h0 hi
    exact ⟨0, by omega, h.behind hrest hk hsplit (by omega) (by omega)
      (.inr ⟨fun hone => by simp [hone], by omega⟩)⟩

theorem Continues.readable (ht : t.Tolerant) (ho : 2 ≤ t.off) (hr : 1 ≤ b.rest)
    (h : Continues t silence b bs) : Readable t silence (b :: bs) :=
  ⟨fun _ hh _ hl => h.spent ht hr hh hl, fun _ hh => h.fresh ht ho hr hh⟩

theorem Beat.Letters.readable (ht : t.Tolerant) (ho : 2 ≤ t.off) (hn : 2 * t.unit ≤ silence)
    {allowed : Nat → Prop} {runs : Nat} (h : Beat.Letters 10 allowed runs bs) : Readable t silence bs := by
  -- from the last beat back, since a late mark may take its end from the beat after it
  induction h with
  | last m hr => exact (Continues.last ht hn m).readable ht ho (Nat.le_add_left 1 9)
  | next hr hrest h ih => exact (Continues.next ht hrest ih).readable ht ho (by omega)

theorem Catches.feed_first (h : Catches t late heard symbols) (hu : 0 < t.unit) :
    ∃ lead, (feed RunTimer.step (RunTimer.waiting t 0 []) heard).2 = lead ++ symbols ∧
      ∀ s ∈ lead, s.isMark = false := by
  obtain ⟨first, last, rfl, ⟨hlen, hs, hc⟩, hlast⟩ := h
  obtain ⟨lead, hrise, hmark⟩ := RunTimer.feed_first_silence hu late first hlen hs hc
  refine ⟨lead, ?_, hmark⟩
  rw [← List.append_assoc, feed_append, hrise, hlast]

namespace Transcriber

/-- A text is received although each of its letters misses an observation, the first one of a mark not
excepted, if a unit of silence may have a tone in it. With the default rate a unit of six may. -/
theorem process_letters {m : MorseSettings} {a : AnalysisSettings} {r : Receiver}
    (hr : Receiver.create m a = .ok r) :
    (m.trueRate = ({} : MorseSettings).trueRate →
      (2 ≤ r.timer.timing.off ∧ 2 * r.timer.timing.off < r.timer.timing.unit ↔
        6 ≤ r.timer.timing.unit)) ∧
    (2 ≤ r.timer.timing.off → 2 * r.timer.timing.off < r.timer.timing.unit →
      ∀ text : String, Spaced text.toList → (encode text).length ≤ Outbox.maxMessage →
      ∀ tones, (Keying.ofSymbols (encode text)).HeardByLetter r.timer.timing.unit tones →
      ∀ frames after : List Frame, frames.map r.hears = tones →
        (∀ f ∈ after, r.hears f = false) → 2 * r.timer.timing.unit ≤ after.length →
      (feed process (start { receiver := r }) (frames ++ after)).2 = [received text]) := by
  obtain ⟨hu, -⟩ := Receiver.unit_pos hr
  constructor
  · intro hm
    have := Receiver.off_fifth hr hm
    omega
  · intro ho h2 text hsp hlen tones hh frames after hf ha hn
    have hrest : after.map r.hears = List.replicate after.length false :=
      List.map_eq_replicate_iff.mpr ha
    rw [Keying.HeardByLetter, encode, Keying.toList_encodeChars hsp] at hh
    have hletters : Beat.Letters 10 (fun _ => True) 0 (Beat.ofChars text.toList) :=
      Beat.letters_ofChars hsp fun _ _ _ _ _ => trivial
    have hreadable := hletters.readable ⟨by omega, h2⟩ ho hn
    obtain ⟨late, -, hcatch⟩ := hreadable.fresh tones hh
    obtain ⟨lead, hfeed, hmark⟩ := hcatch.feed_first hu
    have hx : ∀ x ∈ [text], Spaced x.toList ∧ (encode x).length ≤ Outbox.maxMessage := by
      simpa using ⟨hsp, hlen⟩
    have htext := Outbox.feed_collect_texts {} rfl [text] hx
    rw [List.flatMap_singleton, encode, (Beat.ofChars_spec hsp).1] at htext
    rw [feed_start hr, RunTimer.ofTiming_eq_waiting hu, List.map_append, hf, hrest, hfeed, feed_append,
      Outbox.feed_collect_of_empty {} rfl lead hmark, htext]
    rfl

/-- A dot without its first observation, in the second letter with another dot on either side. -/
theorem process_letters_default :
    let missed := (List.replicate 9 true).set 0 false
    let dot := List.replicate 9 true
    let rest := fun units => List.replicate (units * 9) false
    let tones := missed ++ (rest 1 ++ (dot ++ (rest 3 ++
      (dot ++ (rest 1 ++ (missed ++ (rest 1 ++ (dot ++ rest 10))))))))
    let keyed : Bool → Frame := fun b => if b then Frame.ofList [1950] else Frame.silent
    ∃ r, Receiver.create {} .forMorse = .ok r ∧
      (feed process (start { receiver := r })
        (tones.map keyed ++ List.replicate 18 Frame.silent)).2 = ["IS"] := by
  intro missed dot rest tones keyed
  have hh : (Keying.ofSymbols (encode "is")).HeardByLetter 9 tones :=
    .missed rfl (by decide) (.whole (.whole (.whole (.whole (.whole
      (.missed rfl (by decide) (.whole (.whole (.whole .nil)))))))))
  refine ⟨_, Receiver.create_default, ?_⟩
  refine (process_letters Receiver.create_default).2 (by decide) (by decide) "is" (by decide)
    (by decide) tones hh _ _ (Receiver.map_hears_default rfl tones) ?_ (by decide)
  intro f hf
  rw [List.eq_of_mem_replicate hf]
  exact (Receiver.hears_default rfl).1

end Transcriber

end ToneWatch.Morse
