import Mathlib
import ToneWatch.Proofs.Chunks
import ToneWatch.Proofs.Morse.Text
import ToneWatch.Proofs.Morse.TimingLaw

namespace ToneWatch.Morse

/-- Whether at least half of the samples of a frame are tone. -/
def isKeyed (frame : List Bool) : Bool := frame.length ≤ 2 * frame.countP id

/-- What is heard of samples that are cut into frames. -/
def framed (size : Nat) (samples : List Bool) : List Bool := (chunks size samples).map isKeyed

/-- The first frame of a run that begins at a sample. A frame of which half is tone is tone, so a tone
begins in it and a silence after it. -/
def edge (size : Nat) (on : Bool) (sample : Nat) : Nat :=
  (sample + size / 2 - if on then 1 else 0) / size

variable {size : Nat}

theorem chunks_replicate {α : Type} (size : Nat) (a : α) (count : Nat) :
    chunks size (List.replicate count a) =
        List.replicate (count / size) (List.replicate size a) ∧
      leftOver size (List.replicate count a) = List.replicate (count % size) a := by
  constructor
  · have hchunk : ∀ i ∈ List.range (count / size),
        ((List.replicate count a).drop (i * size)).take size = List.replicate size a := by
      intro i hi
      have hle : (i + 1) * size ≤ count / size * size :=
        Nat.mul_le_mul_right size (List.mem_range.mp hi)
      have hq := Nat.div_mul_le_self count size
      rw [Nat.succ_mul] at hle
      rw [List.drop_replicate, List.take_replicate, Nat.min_eq_left (by omega)]
    rw [chunks_eq_map, List.length_replicate, List.map_congr_left hchunk, List.map_const',
      List.length_range]
  · rw [leftOver, List.drop_replicate, List.length_replicate, Nat.mod_eq_sub_div_mul]

theorem isKeyed_replicate (hn : 0 < size) (on : Bool) : isKeyed (List.replicate size on) = on := by
  cases on <;> simp [isKeyed, List.countP_replicate] <;> omega

/-- A frame with an edge is heard as the run behind it unless the edge lies too late. -/
theorem isKeyed_edge {k : Nat} (hk : k ≤ size) (on : Bool) :
    isKeyed (List.replicate k (!on) ++ List.replicate (size - k) on) =
      if size < 2 * k + (if on then 0 else 1) then !on else on := by
  cases on
  · have hc : (List.replicate k true ++ List.replicate (size - k) false).countP id = k := by
      simp [List.countP_replicate]
    simp only [isKeyed, Bool.not_false, hc, List.length_append, List.length_replicate,
      Bool.false_eq_true, if_false]
    split_ifs <;> simp <;> omega
  · have hc : (List.replicate k false ++ List.replicate (size - k) true).countP id = size - k := by
      simp [List.countP_replicate]
    simp only [isKeyed, Bool.not_true, hc, List.length_append, List.length_replicate, if_true]
    split_ifs <;> simp <;> omega

theorem edge_eq (he : size % 2 = 0) (hn : 0 < size) (on : Bool) (sample : Nat) :
    edge size on sample =
      sample / size + if size < 2 * (sample % size) + (if on then 0 else 1) then 1 else 0 := by
  have hlt := Nat.mod_lt sample hn
  have hdiv := Nat.div_add_mod' sample size
  have hsplit : sample + size / 2 - (if on then 1 else 0) =
      sample % size + size / 2 - (if on then 1 else 0) + sample / size * size := by
    split_ifs <;> omega
  rw [edge, hsplit, Nat.add_mul_div_right _ _ hn, Nat.add_comm]
  congr 1
  split_ifs
  all_goals
    rw [Nat.div_eq_iff hn]
    omega

theorem framed_append (hn : 0 < size) (samples more : List Bool) :
    framed size (samples ++ more) =
      framed size samples ++ framed size (leftOver size samples ++ more) := by
  rw [framed, (chunks_append hn samples more).1, List.map_append]
  rfl

theorem framed_replicate (hn : 0 < size) (on : Bool) (count : Nat) (more : List Bool) :
    framed size (List.replicate count on ++ more) =
      List.replicate (count / size) on ++ framed size (List.replicate (count % size) on ++ more) := by
  obtain ⟨hc, hl⟩ := chunks_replicate size on count
  rw [framed_append hn, hl, framed, hc, List.map_replicate, isKeyed_replicate hn]

theorem framed_edge (hn : 0 < size) (on : Bool) {k count : Nat} (hk : k ≤ size)
    (hfill : size ≤ k + count) (more : List Bool) :
    framed size (List.replicate k (!on) ++ (List.replicate count on ++ more)) =
      (if size < 2 * k + (if on then 0 else 1) then !on else on) ::
        (List.replicate ((k + count) / size - 1) on ++
          framed size (List.replicate ((k + count) % size) on ++ more)) := by
  obtain ⟨left, rfl⟩ : ∃ left, count = size - k + left := ⟨count - (size - k), by omega⟩
  have hsum : k + (size - k + left) = left + size := by omega
  have hlen : (List.replicate k (!on) ++ List.replicate (size - k) on).length = size := by
    simp
    omega
  obtain ⟨hc, hl⟩ := chunks_of_eq hlen hn
  have hfirst : framed size (List.replicate k (!on) ++ List.replicate (size - k) on) =
      [if size < 2 * k + (if on then 0 else 1) then !on else on] := by
    rw [framed, hc, List.map_singleton, isKeyed_edge hk]
  rw [hsum, Nat.add_div_right _ hn, Nat.add_mod_right, Nat.succ_sub_one, List.replicate_add,
    List.append_assoc, ← List.append_assoc, framed_append hn, hl, List.nil_append, hfirst,
    framed_replicate hn on left]
  rfl

/-- A run that fills the frame it begins in is heard from its edge on. -/
theorem framed_run (he : size % 2 = 0) (hn : 0 < size) (on : Bool) {start count : Nat}
    (hfill : start % size = 0 ∨ size ≤ start % size + count) (more : List Bool) :
    framed size (List.replicate (start % size) (!on) ++ (List.replicate count on ++ more)) =
        List.replicate (edge size on start - start / size) (!on) ++
          (List.replicate ((start + count) / size - edge size on start) on ++
            framed size (List.replicate ((start + count) % size) on ++ more)) ∧
      start / size ≤ edge size on start ∧ edge size on start ≤ (start + count) / size := by
  have hlt := Nat.mod_lt start hn
  have hedge := edge_eq he hn on start
  have hsum : start + count = start % size + count + start / size * size := by
    have hdiv := Nat.div_add_mod' start size
    omega
  have hq : (start + count) / size = start / size + (start % size + count) / size := by
    rw [hsum, Nat.add_mul_div_right _ _ hn, Nat.add_comm]
  have hr : (start + count) % size = (start % size + count) % size := by
    rw [hsum, Nat.add_mul_mod_self_right]
  generalize start % size = k, start / size = q at *
  obtain rfl | hfull := hfill
  · have hsame : edge size on start = q := by
      rw [hedge, if_neg (by split_ifs <;> omega), Nat.add_zero]
    rw [Nat.zero_add] at hq hr
    rw [hsame, hq, hr, Nat.sub_self, Nat.add_sub_cancel_left, List.replicate_zero, List.nil_append,
      List.nil_append, framed_replicate hn]
    exact ⟨rfl, le_rfl, Nat.le_add_right _ _⟩
  · obtain ⟨c, hc⟩ : ∃ c, (k + count) / size = c + 1 :=
      ⟨_, (Nat.sub_add_cancel (Nat.div_pos hfull hn)).symm⟩
    rw [framed_edge hn on hlt.le hfull, hr, hq, hc, hedge, Nat.add_sub_cancel]
    by_cases h : size < 2 * k + (if on then 0 else 1)
    · rw [if_pos h, if_pos h, Nat.add_sub_cancel_left, show q + (c + 1) - (q + 1) = c by omega]
      exact ⟨rfl, by omega, by omega⟩
    · rw [if_neg h, if_neg h, Nat.add_zero, Nat.sub_self, Nat.add_sub_cancel_left]
      exact ⟨rfl, le_rfl, by omega⟩

/-- The units of tone in a beat. -/
def Beat.tone (b : Beat) : Nat := (Symbol.mark b.mark).run.units

def Beat.units (b : Beat) : Nat := b.tone + b.rest

theorem Beat.tone_eq (b : Beat) : b.tone = 1 ∨ b.tone = 3 := by
  obtain ⟨m, r⟩ := b
  cases m
  · exact Or.inl rfl
  · exact Or.inr rfl

/-- The frame in which a silence ends; what is left over of the last one is not heard. -/
def onset (size sample : Nat) : List Beat → Nat
  | [] => sample / size
  | _ :: _ => edge size true sample

/-- The beats in frames, if the first one begins after so many units. -/
def keystrokes (size perUnit : Nat) : Nat → List Beat → List Keystroke
  | _, [] => []
  | start, b :: bs =>
    let fall := edge size false ((start + b.tone) * perUnit)
    ⟨fall - edge size true (start * perUnit), onset size ((start + b.units) * perUnit) bs - fall⟩ ::
      keystrokes size perUnit (start + b.units) bs

/-- Whether no run of a plan begins and ends in one frame. -/
def Fills (size perUnit units : Nat) : Prop :=
  ∀ d < units, d * perUnit % size = 0 ∨ size ≤ d * perUnit % size + perUnit

theorem replicate_join {α : Type} (a : α) {i j k : Nat} (hij : i ≤ j) (hjk : j ≤ k) (more : List α) :
    List.replicate (j - i) a ++ (List.replicate (k - j) a ++ more) =
      List.replicate (k - i) a ++ more := by
  rw [← List.append_assoc, ← List.replicate_add]
  congr 2
  omega

/-- The samples of beats are heard as their keystrokes. -/
theorem framed_beats {perUnit : Nat} (he : size % 2 = 0) (hn : 0 < size) (bs : List Beat)
    (hb : ∀ b ∈ bs, 1 ≤ b.rest) (start : Nat)
    (hf : Fills size perUnit (start + (bs.map Beat.units).sum)) :
    framed size (List.replicate (start * perUnit % size) false ++
        (bs.flatMap Beat.runs).flatMap fun r => List.replicate (r.units * perUnit) r.on) =
      List.replicate (onset size (start * perUnit) bs - start * perUnit / size) false ++
        (keystrokes size perUnit start bs).flatMap Keystroke.states ∧
      start * perUnit / size ≤ onset size (start * perUnit) bs := by
  induction bs generalizing start with
  | nil =>
    have hlt : (List.replicate (start * perUnit % size) false).length < size := by
      simpa using Nat.mod_lt (start * perUnit) hn
    obtain ⟨hc, -⟩ := chunks_of_lt hlt
    simp [onset, keystrokes, framed, hc]
  | cons b bs ih =>
    have hrest := hb b (by simp)
    have htone := b.tone_eq
    rw [List.map_cons, List.sum_cons, Beat.units] at hf
    have hfill : ∀ d < start + (b.tone + b.rest + (bs.map Beat.units).sum), ∀ k, 1 ≤ k →
        d * perUnit % size = 0 ∨ size ≤ d * perUnit % size + k * perUnit := by
      intro d hd k hk
      have hle := Nat.le_mul_of_pos_left perUnit hk
      have := hf d hd
      omega
    obtain ⟨htrue, hq, hfall⟩ := framed_run he hn true (hfill start (by omega) b.tone (by omega))
      (List.replicate (b.rest * perUnit) false ++
        (bs.flatMap Beat.runs).flatMap fun r => List.replicate (r.units * perUnit) r.on)
    obtain ⟨hfalse, hfall', hrise⟩ := framed_run he hn false
      (hfill (start + b.tone) (by omega) b.rest hrest)
      ((bs.flatMap Beat.runs).flatMap fun r => List.replicate (r.units * perUnit) r.on)
    obtain ⟨hbs, hrise'⟩ := ih (fun c hc => hb c (List.mem_cons_of_mem _ hc)) (start + b.units)
      (by rw [Beat.units]; simpa only [Nat.add_assoc] using hf)
    have hunits : start + b.tone + b.rest = start + b.units := Nat.add_assoc _ _ _
    rw [← Nat.add_mul] at htrue hfall
    rw [← Nat.add_mul, hunits] at hfalse hrise
    rw [Bool.not_true] at htrue
    rw [Bool.not_false] at hfalse
    have hruns : (((b :: bs).flatMap Beat.runs).flatMap fun r => List.replicate (r.units * perUnit) r.on) =
        List.replicate (b.tone * perUnit) true ++ (List.replicate (b.rest * perUnit) false ++
          (bs.flatMap Beat.runs).flatMap fun r => List.replicate (r.units * perUnit) r.on) := by
      obtain ⟨m, r⟩ := b
      cases m <;> simp [Beat.runs, Beat.tone, Symbol.run]
    rw [hruns, htrue, hfalse, hbs, keystrokes, List.flatMap_cons, Keystroke.states, onset,
      replicate_join true hfall hfall', replicate_join false hrise hrise']
    exact ⟨by simp only [List.append_assoc], hq⟩

theorem framed_keystrokes {perUnit : Nat} (he : size % 2 = 0) (hn : 0 < size) (bs : List Beat)
    (hb : ∀ b ∈ bs, 1 ≤ b.rest) (hf : Fills size perUnit (bs.map Beat.units).sum) :
    framed size ((bs.flatMap Beat.runs).flatMap fun r => List.replicate (r.units * perUnit) r.on) =
      (keystrokes size perUnit 0 bs).flatMap Keystroke.states := by
  have honset : onset size 0 bs = 0 := by
    cases bs with
    | nil => exact Nat.zero_div size
    | cons b bs =>
      rw [onset, edge, if_pos rfl]
      exact Nat.div_eq_of_lt (by omega)
  obtain ⟨h, -⟩ := framed_beats he hn bs hb 0 (by rwa [Nat.zero_add])
  rwa [Nat.zero_mul, honset, Nat.zero_mod, Nat.zero_sub, List.replicate_zero, List.nil_append,
    List.nil_append] at h

end ToneWatch.Morse
