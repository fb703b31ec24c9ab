import Mathlib
import ToneWatch.Morse.Tone
import ToneWatch.Proofs.Morse.Drift
import ToneWatch.Proofs.Morse.Merging
import ToneWatch.Proofs.Morse.UnitLength

namespace ToneWatch.Morse

/-- The plan of a text with four silent units behind it. -/
def transmission (text : String) : Keying := (Keying.ofSymbols (encode text)).push ⟨false, 4⟩

namespace Keying

theorem toList_push_joined {k : Keying} {rs : List Run} {on : Bool} {units more : Nat}
    (hk : k.toList = rs ++ [⟨on, units⟩]) (hm : 0 < more) (hlt : units + more < 2 ^ 64) :
    (k.push ⟨on, more⟩).toList = rs ++ [⟨on, units + more⟩] := by
  have hl : k.latestFirst = ⟨on, units⟩ :: rs.reverse := by
    have hrev := congrArg List.reverse hk
    rwa [toList, List.reverse_reverse, List.reverse_append] at hrev
  rw [push, if_neg hm.ne', hl]
  simp [toList, wrap_of_lt hlt]

end Keying

namespace Beat

theorem runs_append_last (body : List Beat) (m : Mark) (rest : Nat) :
    (body ++ [(⟨m, rest⟩ : Beat)]).flatMap runs =
      (body.flatMap runs ++ [(Symbol.mark m).run]) ++ [⟨false, rest⟩] := by
  simp [runs]

theorem symbols_append_last (body : List Beat) (m : Mark) {rest more : Nat}
    (h : spacing? rest = spacing? more) :
    (body ++ [(⟨m, rest⟩ : Beat)]).flatMap symbols =
      (body ++ [(⟨m, more⟩ : Beat)]).flatMap symbols := by
  simp [symbols, h]

theorem sum_units (bs : List Beat) :
    ((bs.flatMap runs).map Run.units).sum = (bs.map units).sum := by
  induction bs with
  | nil => rfl
  | cons b bs ih =>
    rw [List.flatMap_cons, List.map_append, List.sum_append, ih, List.map_cons, List.sum_cons]
    rfl

theorem sum_units_le {bs : List Beat} (h : ∀ b ∈ bs, b.rest ≤ 14) :
    (bs.map units).sum ≤ 17 * (bs.flatMap symbols).length := by
  induction bs with
  | nil => simp
  | cons b bs ih =>
    have hb := h b (by simp)
    have htone := b.tone_eq
    have hbs := ih fun c hc => h c (List.mem_cons_of_mem _ hc)
    rw [List.map_cons, List.sum_cons, List.flatMap_cons, List.length_append, units, symbols,
      List.length_cons]
    omega

/-- The transmission of a text is keyed as beats that mean what its symbols mean. -/
theorem exists_of_transmission {text : String} {allowed : Nat → Prop} (h : Spaced text.toList)
    (hr : ∀ c ∈ text.toList, c ≠ ' ' → ∀ k ≤ Code.rush 0 (Code.marks c), allowed k) :
    ∃ bs, Letters 14 allowed 0 bs ∧ encode text = bs.flatMap symbols ∧
      (transmission text).toList = bs.flatMap runs := by
  obtain ⟨body, m, hbody, hletters⟩ := (letters_ofChars h hr).extend 14
  refine ⟨_, hletters, ?_, ?_⟩
  · rw [encode, (ofChars_spec h).1, hbody]
    exact symbols_append_last body m rfl
  · have hkeyed := Keying.toList_encodeChars h
    rw [hbody, runs_append_last] at hkeyed
    rw [transmission, encode, Keying.toList_push_joined hkeyed (by omega) (by omega), runs_append_last]

end Beat

theorem received_eq_toUpper {text : String}
    (h : ∀ c ∈ text.toList, c = ' ' ∨ c.isAlphanum = true) : received text = text.toUpper := by
  have hchar : ∀ c ∈ text.toList, heardAs c = c.toUpper := by
    intro c hc
    unfold heardAs
    split_ifs with hs
    · rw [hs]
      rfl
    · rw [Code.fold, if_pos ((h c hc).resolve_left hs)]
  rw [received, List.map_congr_left hchar, String.toUpper, String.map_eq_internal]

theorem Beat.runs_injective {bs cs : List Beat} (h : bs.flatMap runs = cs.flatMap runs) : bs = cs := by
  induction bs generalizing cs with
  | nil =>
    cases cs with
    | nil => rfl
    | cons c cs => simp [runs] at h
  | cons b bs ih =>
    cases cs with
    | nil => simp [runs] at h
    | cons c cs =>
      obtain ⟨m, rest⟩ := b
      obtain ⟨n, rest'⟩ := c
      simp only [List.flatMap_cons, runs, List.cons_append, List.nil_append, List.cons.injEq,
        Run.mk.injEq, true_and] at h
      obtain ⟨hmark, rfl, hbs⟩ := h
      rw [ih hbs]
      cases m <;> cases n <;> first | rfl | cases hmark

/-- Whether run for run the timer is in time for a rendered text: no run begins and ends in one frame,
no lag hides an edge, and what is measured of each run means what was meant. -/
def KeepsUp (t : Timing) (size perUnit : Nat) (text : String) : Prop :=
  ∃ bs, (transmission text).toList = bs.flatMap Beat.runs ∧
    Fills size perUnit (bs.map Beat.units).sum ∧ Reads t 0 (keystrokes size perUnit 0 bs) bs

/-- Whether the two lengths of a unit suit a text: over its units the clocks stay less than half a frame
apart; or of three frames or more the receiver counts too many by so little that each letter bears it;
or the timer keeps up run for run. -/
def Suits (t : Timing) (size perUnit : Nat) (text : String) : Prop :=
  Close t size perUnit (transmission text).totalUnits ∨
    (3 ≤ t.unit ∧ ∀ c ∈ text.toList, c ≠ ' ' →
      t.Bears size (size * t.unit - perUnit) (Code.rush 0 (Code.marks c))) ∨
    KeepsUp t size perUnit text

section KeepsUp

variable {t : Timing} {size perUnit : Nat} {text : String}

theorem keepsUp_of_close (hu : 0 < t.unit) (ho : 1 ≤ t.off) (he : size % 2 = 0) (hn : 4 ≤ size)
    (hx : Spaced text.toList) (hlen : (encode text).length ≤ Outbox.maxMessage)
    (h : Close t size perUnit (transmission text).totalUnits) : KeepsUp t size perUnit text := by
  obtain ⟨bs, hletters, hsymbols, hruns⟩ :=
    @Beat.exists_of_transmission text (fun _ => True) hx fun _ _ _ _ _ => trivial
  have hsum : (bs.map Beat.units).sum < 2 ^ 64 := by
    have hle := Beat.sum_units_le fun b hb => by have := hletters.rest_of_mem b hb; omega
    rw [← hsymbols] at hle
    rw [Outbox.maxMessage] at hlen
    omega
  rw [Keying.totalUnits_eq, hruns, Beat.sum_units, Keying.wrap_of_lt hsum] at h
  exact ⟨bs, hruns, h.fills hu, reads_of_close hu ho hletters 0 fun d hd =>
    h.edge_eq he (by omega) (by rwa [Nat.zero_add] at hd)⟩

theorem keepsUp_of_bears (hoff : 5 * t.off ≤ t.unit + 4) (he : size % 2 = 0) (hn : 4 ≤ size)
    (hlonger : 2 * perUnit < (2 * t.unit + 1) * size) (hshorter : t.unit * size ≤ perUnit + size + 1)
    (hne : perUnit ≠ size * t.unit) (hx : Spaced text.toList) (hthree : 3 ≤ t.unit)
    (h : ∀ c ∈ text.toList, c ≠ ' ' →
      t.Bears size (size * t.unit - perUnit) (Code.rush 0 (Code.marks c))) :
    KeepsUp t size perUnit text := by
  obtain ⟨bs, hletters, -, hruns⟩ := Beat.exists_of_transmission hx fun c hc hs _ hk =>
    (h c hc hs).of_le hk
  obtain ⟨c, cs, hcs⟩ := List.exists_cons_of_ne_nil hx.1
  have hc : c ≠ ' ' := by
    rintro rfl
    exact hx.2.1 (by rw [hcs]; rfl)
  have htwo := (h c (by simp [hcs]) hc).of_le (Code.two_le_rush 0 (Code.marks c))
  rw [Nat.add_mul, Nat.mul_assoc, Nat.mul_comm t.unit size] at hlonger
  rw [Nat.mul_comm] at hshorter
  have hd : t.Drifts size perUnit (size * t.unit - perUnit) :=
    ⟨he, by omega, by omega, htwo, by omega, hshorter, hthree, hoff⟩
  have hscaled := Nat.mul_le_mul_left size hthree
  exact ⟨bs, hruns, fills_of_le (by omega) _, reads_of_drift hd hletters 0 0 (hd.in_time _ _)⟩

/-- What suits a text is in time for it. -/
theorem Suits.keepsUp (hs : Suits t size perUnit text) (hu : 0 < t.unit) (ho : 1 ≤ t.off)
    (hoff : 5 * t.off ≤ t.unit + 4) (he : size % 2 = 0) (hn : 4 ≤ size)
    (hlonger : 2 * perUnit < (2 * t.unit + 1) * size) (hshorter : t.unit * size ≤ perUnit + size + 1)
    (hx : Spaced text.toList) (hlen : (encode text).length ≤ Outbox.maxMessage) :
    KeepsUp t size perUnit text := by
  obtain hclose | ⟨hthree, hbears⟩ | hkeeps := hs
  · exact keepsUp_of_close hu ho he hn hx hlen hclose
  · by_cases hsame : perUnit = size * t.unit
    · refine keepsUp_of_close hu ho he hn hx hlen ?_
      have hzero : (perUnit : ℤ) - t.unit * size = 0 := by
        rw [hsame]
        push_cast
        ring
      rw [Close, hzero]
      simp only [Int.natAbs_zero, Nat.mul_zero]
      omega
    · exact keepsUp_of_bears hoff he hn hlonger hshorter hsame hx hthree hbears
  · exact hkeeps

end KeepsUp

/-- A rendered run of a text has no more samples than a word can count. -/
theorem Tone.steps_lt (tone : Tone) {k : Keying} {bs : List Beat} (hk : k.toList = bs.flatMap Beat.runs)
    (hb : ∀ b ∈ bs, 1 ≤ b.rest ∧ b.rest ≤ 14) :
    ∀ r ∈ k.toList, r.units * tone.samplesPerUnit < 2 ^ 64 := by
  have hper : tone.samplesPerUnit ≤ 2 ^ 55 := by
    have hrate := tone.sampleRate.toNat_lt
    have hdot := tone.dotDurationMs.toNat_lt
    have hproduct : tone.sampleRate.toNat * tone.dotDurationMs.toNat ≤ 2 ^ 32 * 2 ^ 32 :=
      Nat.mul_le_mul hrate.le hdot.le
    rw [Tone.samplesPerUnit]
    omega
  have hunits : ∀ r ∈ k.toList, r.units ≤ 14 := by
    rw [hk]
    intro r hr
    obtain ⟨b, hbs, hrun⟩ := List.mem_flatMap.mp hr
    have htone := b.tone_eq
    simp only [Beat.runs, List.mem_cons, List.not_mem_nil, or_false] at hrun
    obtain rfl | rfl := hrun
    · rw [Beat.tone] at htone
      omega
    · exact (hb b hbs).2
  intro r hr
  calc r.units * tone.samplesPerUnit ≤ 14 * 2 ^ 55 := Nat.mul_le_mul (hunits r hr) hper
    _ < 2 ^ 64 := by norm_num

namespace Transcriber

/-- A rendered text is received as one message. -/
theorem process_rendered {m : MorseSettings} {a : AnalysisSettings} {r : Receiver}
    (hr : Receiver.create m a = .ok r) (hm : m.trueRate = ({} : MorseSettings).trueRate) (tone : Tone)
    (hrate : tone.sampleRate = a.sampleRate) (hdot : tone.dotDurationMs = m.dotDurationMs)
    (text : String) (hx : Spaced text.toList)
    (hc : ∀ c ∈ text.toList, c = ' ' ∨ c.isAlphanum = true)
    (hlen : (encode text).length ≤ Outbox.maxMessage)
    (hs : Suits r.timer.timing a.frameSize.toNat tone.samplesPerUnit text) (frames : List Frame)
    (hf : frames.map r.hears =
      framed a.frameSize.toNat ((transmission text).states tone.samplesPerUnit)) :
    (feed process (start { receiver := r }) frames).2 = [text.toUpper] := by
  obtain ⟨hu, -⟩ := Receiver.unit_pos hr
  obtain ⟨ho, hoff⟩ := Receiver.off_bounds hr hm
  have hper : tone.samplesPerUnit = a.sampleRate.toNat * m.dotDurationMs.toNat / 1000 := by
    rw [Tone.samplesPerUnit, hrate, hdot]
  obtain ⟨heven, hfour, hlonger, hshorter⟩ := Receiver.frame_bounds hr
  rw [← hper] at hlonger hshorter
  obtain ⟨bs, hruns, hfills, hreads⟩ :=
    hs.keepsUp hu ho hoff heven hfour hlonger hshorter hx hlen
  obtain ⟨cs, hletters, hsymbols, hsame⟩ :=
    @Beat.exists_of_transmission text (fun _ => True) hx fun _ _ _ _ _ => trivial
  obtain rfl : bs = cs := Beat.runs_injective (hruns.symm.trans hsame)
  have hrest : ∀ b ∈ bs, 1 ≤ b.rest ∧ b.rest ≤ 14 := by
    intro b hb
    have := hletters.rest_of_mem b hb
    omega
  obtain ⟨lead, hfeed, hmark⟩ := hreads.feed_states ho
  rw [feed_start hr, RunTimer.ofTiming_eq_waiting hu, hf, Keying.states_of_lt (tone.steps_lt hruns hrest),
    hruns, framed_keystrokes heven (by omega) bs (fun b hb => (hrest b hb).1) hfills, hfeed, ← hsymbols,
    feed_append, Outbox.feed_collect_of_empty {} rfl lead hmark]
  have htext := Outbox.feed_collect_texts {} rfl [text] (by simpa using ⟨hx, hlen⟩)
  rw [List.flatMap_singleton, List.map_singleton] at htext
  rw [htext, received_eq_toUpper hc]
  rfl

/-- A unit of 1100 samples is counted as nine frames, which are 1152. Letters of two marks bear the 52
too many; in a K they are borne because the edges lie well. -/
theorem process_rendered_default :
    let tone : Tone := ⟨.ofNat 2000, 11000, 100, 8000⟩
    let keyed : Bool → Frame := fun b => if b then Frame.ofList [1950] else Frame.silent
    ∃ r, Receiver.create {} .forMorse = .ok r ∧
      (feed process (start { receiver := r })
        ((framed 128 ((transmission "Men in a team").states tone.samplesPerUnit)).map keyed)).2 =
          ["MEN IN A TEAM"] ∧
      (feed process (start { receiver := r })
        ((framed 128 ((transmission "k").states tone.samplesPerUnit)).map keyed)).2 = ["K"] := by
  intro tone keyed
  have hteam : "MEN IN A TEAM" = "Men in a team".toUpper := by decide +kernel
  have hletter : "K" = "k".toUpper := by decide +kernel
  refine ⟨_, Receiver.create_default, ?_, ?_⟩
  · rw [hteam]
    refine process_rendered Receiver.create_default rfl tone rfl rfl "Men in a team" (by decide)
      (List.all_iff_forall_prop.mp rfl) (by decide) (.inr (.inl ⟨by decide, ?_⟩)) _
      (Receiver.map_hears_default rfl _)
    exact List.all_iff_forall_prop.mp (by decide)
  · rw [hletter]
    refine process_rendered Receiver.create_default rfl tone rfl rfl "k" (by decide)
      (List.all_iff_forall_prop.mp rfl) (by decide) (.inr (.inr ?_)) _
      (Receiver.map_hears_default rfl _)
    refine ⟨[⟨.dash, 1⟩, ⟨.dot, 1⟩, ⟨.dash, 14⟩], by decide, fills_of_le (by decide) _, ?_⟩
    have hstrokes : keystrokes AnalysisSettings.forMorse.frameSize.toNat tone.samplesPerUnit 0
        [⟨.dash, 1⟩, ⟨.dot, 1⟩, ⟨.dash, 14⟩] = [⟨26, 8⟩, ⟨9, 9⟩, ⟨25, 120⟩] := by decide +kernel
    rw [hstrokes]
    exact .next (by decide) (by decide) (by decide) (by decide) (by decide) (by decide)
      (.next (by decide) (by decide) (by decide) (by decide) (by decide) (by decide)
        (.last (by decide) (by decide) (by decide) (by decide) (by decide)))

/-- The unit in which the second dot of an S should end begins so late that the third dot reaches into it,
and both are read as one dash. -/
theorem misheard_default :
    let tone : Tone := ⟨.ofNat 2000, 11000, 100, 8000⟩
    ∃ r, Receiver.create {} .forMorse = .ok r ∧
      tone.sampleRate = AnalysisSettings.forMorse.sampleRate ∧
      tone.dotDurationMs = ({} : MorseSettings).dotDurationMs ∧ Spaced "S".toList ∧
      (∀ c ∈ "S".toList, c = ' ' ∨ c.isAlphanum = true) ∧
      (encode "S").length ≤ Outbox.maxMessage ∧
      ∃ frames, frames.map r.hears = framed 128 ((transmission "S").states tone.samplesPerUnit) ∧
        (feed process (start { receiver := r }) frames).2 = ["A"] ∧ "S".toUpper ≠ "A" := by
  intro tone
  have hf := @Receiver.map_hears_default { settings := {}, timer := .ofTiming ⟨9, 7⟩ } rfl
    (framed 128 ((transmission "S").states tone.samplesPerUnit))
  refine ⟨_, Receiver.create_default, rfl, rfl, by decide, List.all_iff_forall_prop.mp rfl,
    by decide, _, hf, ?_, by decide +kernel⟩
  have hbeats : (transmission "S").toList = [⟨.dot, 1⟩, ⟨.dot, 1⟩, ⟨.dot, 14⟩].flatMap Beat.runs := by
    decide
  rw [feed_start Receiver.create_default, hf, Keying.states_of_lt (tone.steps_lt hbeats (by decide)), hbeats,
    framed_keystrokes (by decide) (by decide) _ (by decide) (fills_of_le (by decide) _)]
  decide +kernel

end Transcriber

end ToneWatch.Morse
