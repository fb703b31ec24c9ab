import Mathlib
import ToneWatch.Proofs.Morse.Reception
import ToneWatch.Proofs.Morse.Text
import ToneWatch.Proofs.Morse.TimingLaw

namespace ToneWatch.Morse

namespace Timing

/-- Whether a unit of tone with one miss is still on, and a fall that is early by less than the
threshold of silence still leaves most of the unit. -/
def Tolerant (t : Timing) : Prop := 1 ≤ t.off ∧ 2 * t.off < t.unit

instance (t : Timing) : Decidable t.Tolerant := inferInstanceAs (Decidable (_ ∧ _))

variable {t : Timing}

theorem Tolerant.on_lt (h : t.Tolerant) : t.on + t.off = t.unit := by
  obtain ⟨h1, -⟩ := h
  unfold Timing.off at h1 ⊢
  omega

theorem nearest_of_late {k e : Nat} (h : 2 * e < t.unit) : t.nearest (k * t.unit + e) = k := by
  rw [nearest, Nat.add_assoc, Nat.add_comm, Nat.add_mul_div_right _ _ (by omega),
    Nat.div_eq_of_lt (by omega), Nat.zero_add]

theorem nearest_of_early {k e : Nat} (hk : 0 < k) (h : 2 * e < t.unit) :
    t.nearest (k * t.unit - e) = k := by
  have hm : t.unit ≤ k * t.unit := Nat.le_mul_of_pos_left _ hk
  have hs : k * t.unit - e + t.unit / 2 = t.unit / 2 - e + k * t.unit := by omega
  rw [nearest, hs, Nat.add_mul_div_right _ _ (by omega), Nat.div_eq_of_lt (by omega), Nat.zero_add]

set_option maxRecDepth 4000 in
theorem tolerant_round : ∀ u < 501,
    (Tolerant ⟨u, (truncate (Precision.single.round
      (u * ({} : MorseSettings).trueRate.toRat))).toNat⟩ ↔ 3 ≤ u) := by decide +kernel

/-- With the default rate a unit of three observations is tolerant, and no shorter one. -/
theorem tolerant_ofSettings {m : MorseSettings} {a : AnalysisSettings}
    (hm : m.trueRate = ({} : MorseSettings).trueRate) (hu : m.timeUnit a ≤ 500) :
    (ofSettings m a).Tolerant ↔ 3 ≤ m.timeUnit a := by
  have h := tolerant_round (m.timeUnit a) (by omega)
  rwa [← hm] at h

end Timing

/-- Whether observations are those of a run, but for a miss in a tone. The first observation of a tone
is not missed. -/
def Run.Heard (perUnit : Nat) (r : Run) (tones : List Bool) : Prop :=
  tones = List.replicate (r.units * perUnit) r.on ∨
    r.on = true ∧ ∃ i, 0 < i ∧ i < r.units * perUnit ∧
      tones = (List.replicate (r.units * perUnit) true).set i false

/-- Whether observations are those of a plan, but for one miss in each tone. -/
def Keying.Heard (perUnit : Nat) (k : Keying) (tones : List Bool) : Prop :=
  ∃ heard, List.Forall₂ (Run.Heard perUnit) k.toList heard ∧ tones = heard.flatten

theorem Keying.heard_states {perUnit : Nat} {k : Keying} (h : ∀ r ∈ k.toList, r.units * perUnit < 2 ^ 64) :
    k.Heard perUnit (k.states perUnit) := by
  rw [states_of_lt h]
  refine ⟨k.toList.map fun r => List.replicate (r.units * perUnit) r.on, ?_, rfl⟩
  rw [List.forall₂_map_right_iff, List.forall₂_same]
  intro r hr
  exact Or.inl rfl

theorem Run.Heard.of_silence {perUnit units : Nat} {tones : List Bool}
    (h : Run.Heard perUnit ⟨false, units⟩ tones) :
    tones = List.replicate (units * perUnit) false := by
  rcases h with h | ⟨h, -⟩
  · exact h
  · cases h

theorem set_replicate {n i : Nat} (h : i < n) :
    (List.replicate n true).set i false =
      List.replicate i true ++ false :: List.replicate (n - i - 1) true := by
  have hn : List.replicate n true = List.replicate i true ++ List.replicate (n - i) true := by
    rw [← List.replicate_add]
    congr 1
    omega
  obtain ⟨k, hk⟩ : ∃ k, n - i = k + 1 := ⟨n - i - 1, by omega⟩
  rw [hn, hk, List.set_append_right _ _ (by simp), List.length_replicate, Nat.sub_self,
    List.replicate_succ, List.set_cons_zero, Nat.add_sub_cancel]

theorem countP_set_replicate {n i : Nat} (h : i < n) :
    ((List.replicate n true).set i false).countP id = n - 1 := by
  rw [set_replicate h]
  simp [List.countP_replicate]
  omega

namespace RunTimer

variable {t : Timing}

/-- A miss with too little of the tone behind it starts the silence early. -/
theorem feed_missed_late (hu : 0 < t.unit) (ho : t.off ≤ t.unit) {n j : Nat} (hj : j < n)
    (he : n - j ≤ t.off) :
    feed step (sounding t [])
        ((List.replicate n true).set j false ++ List.replicate (t.unit - (n - j)) false) =
      (waiting t 1 [], [.mark (markOf (t.nearest (n + t.unit - (n - j))))]) := by
  obtain ⟨hf, hq⟩ := Timing.falls_miss (t := t) hu j (n - j) (by omega) he (by omega)
  have hs := set_replicate hj
  have hlen : ((List.replicate n true).set j false ++
      List.replicate (t.unit - (n - j)) false).length = j + t.unit := by
    simp
    omega
  have hn : j + t.unit = n + t.unit - (n - j) := by omega
  rw [← hs] at hf hq
  rw [feed_fall hu _ hf hq, hlen, hn]

theorem feed_missed_early (hu : 0 < t.unit) (ho : 0 < t.off) (hlt : t.off < t.unit) {n j : Nat}
    (hj : j < n) (he : t.off < n - j) :
    feed step (sounding t []) ((List.replicate n true).set j false ++ List.replicate t.unit false) =
      (waiting t 1 [], [.mark (markOf (t.nearest (n + t.unit)))]) := by
  have hbehind : ∀ i < ((List.replicate n true).set j false).length,
      ((List.replicate n true).set j false)[i]? = some true ∨
        t.off ≤ ((((List.replicate n true).set j false).drop i).take t.unit).countP id := by
    intro i hi
    have hin : i < n := by simpa using hi
    by_cases hij : i = j
    · right
      have hd : ((List.replicate n true).set j false).drop i =
          false :: List.replicate (n - j - 1) true := by
        rw [set_replicate hj, hij]
        exact List.drop_left' (by simp)
      obtain ⟨u, hv⟩ : ∃ u, t.unit = u + 1 := ⟨t.unit - 1, by omega⟩
      rw [hd, hv, List.take_succ_cons, List.take_replicate]
      simp [List.countP_replicate]
      omega
    · left
      rw [List.getElem?_set_ne (Ne.symm hij), List.getElem?_replicate, if_pos hin]
  obtain ⟨hf, hq⟩ := Timing.falls_tone hu ho ((List.replicate n true).set j false) hbehind
  have hlen : ((List.replicate n true).set j false ++
      List.replicate t.unit false).length = n + t.unit := by simp
  rw [feed_fall hu _ hf hq, hlen]

theorem feed_missed (ht : t.Tolerant) {n j : Nat} (hj : j < n) :
    ∃ e ≤ t.off, feed step (sounding t [])
        ((List.replicate n true).set j false ++ List.replicate (t.unit - e) false) =
      (waiting t 1 [], [.mark (markOf (t.nearest (n + t.unit - e)))]) := by
  obtain ⟨h1, h2⟩ := ht
  by_cases he : n - j ≤ t.off
  · exact ⟨n - j, he, feed_missed_late (by omega) (by omega) hj he⟩
  · exact ⟨0, Nat.zero_le _, feed_missed_early (by omega) h1 (by omega) hj (by omega)⟩

/-- A heard mark rises with its first unit and is read when it falls, perhaps early. -/
theorem feed_heard (ht : t.Tolerant) (m : Mark) {tones : List Bool}
    (h : (Symbol.mark m).run.Heard t.unit tones) :
    ∃ first rest, tones = first ++ rest ∧ first.length = t.unit ∧ first[0]? = some true ∧
      t.on ≤ first.countP id ∧
      ∃ e ≤ t.off, feed step (sounding t []) (rest ++ List.replicate (t.unit - e) false) =
        (waiting t 1 [], [.mark m]) := by
  have hon := ht.on_lt
  have h1 := ht.1
  have h2 := ht.2
  have hu : 0 < t.unit := by omega
  obtain ⟨k, hk, hrun, hmark⟩ : ∃ k, 1 ≤ k ∧ (Symbol.mark m).run = ⟨true, k⟩ ∧ markOf k = m := by
    cases m with
    | dot => exact ⟨1, by omega, rfl, rfl⟩
    | dash => exact ⟨3, by omega, rfl, rfl⟩
  have hle : t.unit ≤ k * t.unit := Nat.le_mul_of_pos_left _ hk
  have hsplit := replicate_split hle true
  have hearly : ∀ e ≤ t.off, markOf (t.nearest (k * t.unit - e)) = m := by
    intro e he
    rw [Timing.nearest_of_early hk (by omega), hmark]
  have hwhole := feed_tone hu h1 hle
  have hzero : markOf (t.nearest (k * t.unit)) = m := hearly 0 (Nat.zero_le _)
  rw [hzero] at hwhole
  rw [hrun] at h
  rcases h with rfl | ⟨-, i, hi, hik, rfl⟩
  · exact ⟨_, _, hsplit, by simp, by simp [hu], Timing.on_le_unit h1, 0, by omega, hwhole⟩
  · by_cases hiu : i < t.unit
    · refine ⟨(List.replicate t.unit true).set i false, List.replicate (k * t.unit - t.unit) true,
        ?_, by simp, ?_, ?_, 0, by omega, hwhole⟩
      · rw [hsplit, List.set_append_left _ _ (by simpa using hiu)]
      · rw [List.getElem?_set_ne (by omega), List.getElem?_replicate, if_pos hu]
      · rw [countP_set_replicate hiu]
        omega
    · have hik : i < k * t.unit := hik
      have hj : i - t.unit < k * t.unit - t.unit := by omega
      obtain ⟨e, he, hf⟩ := feed_missed ht hj
      rw [Nat.sub_add_cancel hle, hearly e he] at hf
      refine ⟨List.replicate t.unit true,
        (List.replicate (k * t.unit - t.unit) true).set (i - t.unit) false,
        ?_, by simp, by simp [hu], Timing.on_le_unit h1, e, he, hf⟩
      rw [hsplit, List.set_append_right _ _ (by simpa using hiu), List.length_replicate]

/-- A heard beat is a first unit that rises, the rest of the mark with so much of the silence that it
falls, and what is left of the silence. -/
theorem feed_beat (ht : t.Tolerant) (b : Beat) (hb : 1 ≤ b.rest) {rs : List Run}
    {heard : List (List Bool)} (hh : List.Forall₂ (Run.Heard t.unit) (b.runs ++ rs) heard) :
    ∃ first last left, ∃ e ≤ t.off,
      heard.flatten =
        first ++ (last ++ (List.replicate (b.rest * t.unit - t.unit + e) false ++ left.flatten)) ∧
      (first.length = t.unit ∧ first[0]? = some true ∧ t.on ≤ first.countP id) ∧
      feed step (sounding t []) last = (waiting t 1 [], [.mark b.mark]) ∧
      List.Forall₂ (Run.Heard t.unit) rs left := by
  obtain ⟨tone, more, htone, hmore, rfl⟩ := List.forall₂_cons_left_iff.mp hh
  obtain ⟨silence, left, hsilence, hleft, rfl⟩ := List.forall₂_cons_left_iff.mp hmore
  obtain ⟨first, last, rfl, hlen, hs, hc, e, he, hfall⟩ := feed_heard ht b.mark htone
  have hle : t.unit ≤ b.rest * t.unit := Nat.le_mul_of_pos_left _ hb
  have h2 := ht.2
  refine ⟨first, last ++ List.replicate (t.unit - e) false, left, e, he, ?_, ⟨hlen, hs, hc⟩, hfall,
    hleft⟩
  have hquiet : silence = List.replicate (t.unit - e) false ++
      List.replicate (b.rest * t.unit - t.unit + e) false := by
    rw [hsilence.of_silence, ← List.replicate_add]
    congr 1
    omega
  rw [hquiet]
  simp only [List.flatten_cons, List.append_assoc]

/-- After a mark, what is left of the silence of its beat and then more beats, each of which may fall
early. -/
theorem feed_beats (ht : t.Tolerant) (b : Beat) (bs : List Beat) (hb : ∀ c ∈ b :: bs, 1 ≤ c.rest)
    (hl : ∀ c ∈ (b :: bs).getLast?, c.rest = 10) {e : Nat} (he : e ≤ t.off)
    {heard : List (List Bool)} (hh : List.Forall₂ (Run.Heard t.unit) (bs.flatMap Beat.runs) heard)
    {n : Nat} (hn : 2 * t.unit ≤ n) :
    (feed step (waiting t 1 []) (List.replicate (b.rest * t.unit - t.unit + e) false ++
      (heard.flatten ++ List.replicate n false))).2 =
      (spacing? b.rest).toList ++ bs.flatMap Beat.symbols := by
  have h2 := ht.2
  have hu : 0 < t.unit := by omega
  have hle : t.unit ≤ b.rest * t.unit := Nat.le_mul_of_pos_left _ (hb b (by simp))
  -- what the last mark lost by falling `e` early, the silence after it gained
  induction bs generalizing b e heard with
  | nil =>
    have hten : b.rest = 10 := hl b rfl
    cases hh
    rw [List.flatten_nil, List.nil_append, ← List.replicate_add,
      feed_only_silence hu (le_refl 1), if_pos (by rw [hten, Timing.endAfter, endUnits]; omega), hten]
    rfl
  | cons c bs ih =>
    obtain ⟨first, last, left, d, hd, hsplit, ⟨hlen, hs, hc⟩, hfall, hleft⟩ :=
      feed_beat ht c (hb c (by simp)) hh
    have hcle : t.unit ≤ c.rest * t.unit := Nat.le_mul_of_pos_left _ (hb c (by simp))
    have hrise := feed_silence hu (b.rest * t.unit - t.unit + e) first hlen hs hc
    have hnear : t.nearest (b.rest * t.unit - t.unit + e + t.unit) = b.rest := by
      rw [show b.rest * t.unit - t.unit + e + t.unit = b.rest * t.unit + e by omega,
        Timing.nearest_of_late (by omega)]
    rw [hnear] at hrise
    rw [hsplit, List.append_assoc, ← List.append_assoc, feed_append, hrise, List.append_assoc,
      feed_append, hfall, List.append_assoc,
      ih c (fun x hx => hb x (List.mem_cons_of_mem _ hx)) (by simpa using hl) hd hleft hcle]
    rfl

theorem feed_transmission (ht : t.Tolerant) (bs : List Beat) (hb : ∀ c ∈ bs, 1 ≤ c.rest)
    (hl : ∀ c ∈ bs.getLast?, c.rest = 10) {heard : List (List Bool)}
    (hh : List.Forall₂ (Run.Heard t.unit) (bs.flatMap Beat.runs) heard) (k : Nat) {n : Nat}
    (hn : 2 * t.unit ≤ n) :
    ∃ lead, (feed step (waiting t 0 []) (List.replicate k false ++
        (heard.flatten ++ List.replicate n false))).2 = lead ++ bs.flatMap Beat.symbols ∧
      ∀ s ∈ lead, s.isMark = false := by
  have h2 := ht.2
  have hu : 0 < t.unit := by omega
  cases bs with
  | nil =>
    cases hh
    rw [List.flatten_nil, List.nil_append, ← List.replicate_add,
      feed_only_silence hu (Nat.zero_le 1)]
    exact ⟨_, (List.append_nil _).symm, fun s hs => isMark_end hs⟩
  | cons c bs =>
    obtain ⟨first, last, left, d, hd, hsplit, ⟨hlen, hs, hc⟩, hfall, hleft⟩ :=
      feed_beat ht c (hb c (by simp)) hh
    obtain ⟨lead, hrise, hmark⟩ := feed_first_silence hu k first hlen hs hc
    refine ⟨lead, ?_, hmark⟩
    rw [hsplit, List.append_assoc, ← List.append_assoc, feed_append, hrise, List.append_assoc,
      feed_append, hfall, List.append_assoc, feed_beats ht c bs hb hl hd hleft hn]
    rfl

end RunTimer

theorem heard_of_texts {perUnit : Nat} {texts : List String} {tones : List (List Bool)}
    (h : List.Forall₂ (fun x => (Keying.ofSymbols (encode x)).Heard perUnit) texts tones) :
    ∃ heard, List.Forall₂ (Run.Heard perUnit)
        (texts.flatMap fun x => (Keying.ofSymbols (encode x)).toList) heard ∧
      tones.flatten = heard.flatten := by
  induction h with
  | nil => exact ⟨[], List.Forall₂.nil, rfl⟩
  | cons hx _ ih =>
    obtain ⟨first, hf, rfl⟩ := hx
    obtain ⟨heard, hh, he⟩ := ih
    refine ⟨first ++ heard, List.rel_append hf hh, ?_⟩
    rw [List.flatten_cons, he, List.flatten_append]

theorem Outbox.feed_collect_texts (o : Outbox) (ho : o.symbols = []) (texts : List String)
    (hx : ∀ x ∈ texts, Spaced x.toList ∧ (encode x).length ≤ maxMessage) :
    feed collect o (texts.flatMap encode) = (o, texts.map received) := by
  induction texts with
  | nil => rfl
  | cons x texts ih =>
    obtain ⟨hsp, hlen⟩ := hx x (by simp)
    obtain ⟨body, he, hb⟩ := encodeChars_end x.toList
    have hmark : ∀ s ∈ (body ++ [Symbol.endOfTransmission]).head?, s.isMark = true := by
      rw [← he, (Beat.ofChars_spec hsp).1]
      exact Beat.isMark_head_symbols _
    have hne : body ≠ [] := by
      rintro rfl
      exact absurd (hmark _ rfl) (by decide)
    have hhead : ∀ s ∈ body.head?, s.isMark = true := by
      intro s hs
      exact hmark s (by rw [List.head?_append_of_ne_nil _ hne]; exact hs)
    have hone : feed collect o (encode x) = (o, [received x]) := by
      rw [encode, he] at hlen
      rw [← decode_encode, encode, he]
      exact feed_collect_message o ho body hhead hne hlen hb
    rw [List.flatMap_cons, feed_append, hone, ih fun y hy => hx y (List.mem_cons_of_mem _ hy)]
    rfl

namespace Transcriber

/-- Texts sent one after another are received as one message each, whatever silence comes first and
although any mark may miss an observation other than its first. -/
theorem process_texts {m : MorseSettings} {a : AnalysisSettings} {r : Receiver}
    (hr : Receiver.create m a = .ok r) :
    (m.trueRate = ({} : MorseSettings).trueRate →
      (r.timer.timing.Tolerant ↔ 3 ≤ r.timer.timing.unit)) ∧
    (r.timer.timing.Tolerant →
      ∀ texts : List String,
        (∀ x ∈ texts, Spaced x.toList ∧ (encode x).length ≤ Outbox.maxMessage) →
      ∀ tones : List (List Bool),
        List.Forall₂ (fun x => (Keying.ofSymbols (encode x)).Heard r.timer.timing.unit) texts tones →
      ∀ before frames after : List Frame,
        (∀ f ∈ before, r.hears f = false) → frames.map r.hears = tones.flatten →
        (∀ f ∈ after, r.hears f = false) → 2 * r.timer.timing.unit ≤ after.length →
      (feed process (start { receiver := r }) (before ++ frames ++ after)).2 =
        texts.map received) := by
  obtain ⟨hu, hmax⟩ := Receiver.unit_pos hr
  constructor
  · intro hm
    obtain ⟨-, rfl⟩ := Receiver.create_ok hr
    exact Timing.tolerant_ofSettings hm hmax
  · intro ht texts hx tones hh before frames after hb hf ha hn
    obtain ⟨heard, hheard, hflat⟩ := heard_of_texts hh
    obtain ⟨bs, hs, hruns, hpos, hlast⟩ := Beat.exists_of_texts texts fun x h => (hx x h).1
    rw [hruns] at hheard
    obtain ⟨lead, hfeed, hmark⟩ :=
      RunTimer.feed_transmission ht bs hpos hlast hheard before.length hn
    have hsilent : before.map r.hears = List.replicate before.length false :=
      List.map_eq_replicate_iff.mpr hb
    have hrest : after.map r.hears = List.replicate after.length false :=
      List.map_eq_replicate_iff.mpr ha
    rw [feed_start hr, RunTimer.ofTiming_eq_waiting hu, List.map_append, List.map_append, hsilent,
      hrest, hf, hflat, List.append_assoc, hfeed, ← hs, feed_append,
      Outbox.feed_collect_of_empty {} rfl lead hmark, Outbox.feed_collect_texts {} rfl texts hx]
    rfl

/-- A dot without its sixth observation, and a dash without its last one. -/
theorem process_texts_default :
    let tones := [(List.replicate 9 true).set 5 false ++ List.replicate 9 false ++
      (List.replicate 27 true).set 26 false ++ List.replicate 90 false,
      List.replicate 27 true ++ List.replicate 90 false]
    let keyed : Bool → Frame := fun b => if b then Frame.ofList [1950] else Frame.silent
    ∃ r, Receiver.create {} .forMorse = .ok r ∧
      (feed process (start { receiver := r })
        (List.replicate 4 Frame.silent ++ tones.flatten.map keyed ++
          List.replicate 18 Frame.silent)).2 = ["A", "T"] := by
  intro tones keyed
  have hsilent : ∀ n, ∀ f ∈ List.replicate n Frame.silent,
      Receiver.hears { settings := {}, timer := .ofTiming ⟨9, 7⟩ } f = false := by
    intro n f hf
    rw [List.eq_of_mem_replicate hf]
    exact (Receiver.hears_default rfl).1
  have ha : (Keying.ofSymbols (encode "a")).Heard 9 tones[0] :=
    ⟨[_, _, _, _], .cons (.inr ⟨rfl, 5, by decide, by decide, rfl⟩) (.cons (.inl rfl)
      (.cons (.inr ⟨rfl, 26, by decide, by decide, rfl⟩) (.cons (.inl rfl) .nil))), rfl⟩
  have ht : (Keying.ofSymbols (encode "t")).Heard 9 tones[1] :=
    ⟨[_, _], .cons (.inl rfl) (.cons (.inl rfl) .nil), rfl⟩
  refine ⟨_, Receiver.create_default, ?_⟩
  refine (process_texts Receiver.create_default).2 (by decide) ["a", "t"] (by decide) tones
    (.cons ha (.cons ht .nil)) _ _ _ (hsilent 4) (Receiver.map_hears_default rfl _) (hsilent 18)
    (by decide)

end Transcriber

end ToneWatch.Morse
