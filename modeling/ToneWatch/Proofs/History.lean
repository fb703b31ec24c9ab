import Mathlib
import ToneWatch.History

namespace ToneWatch.History

variable {α : Type}

theorem push_of_room (h : History α) (a : α) (hr : h.size < h.capacity) :
    h.push a = { h with newest := a :: h.newest } := by
  have hf : h.isFull = false := by
    rw [isFull, decide_eq_false_iff_not]
    omega
  simp only [push, hf, Bool.false_eq_true, if_false]

theorem get?_size_sub (h : History α) {n : Nat} (hn : 0 < n) (hs : n ≤ h.size) :
    h.get? (h.size - n) = h.newest[n - 1]? := by
  rw [get?, if_pos (by omega)]
  congr 1
  omega

/-- Whether a history is what is left of a log, latest first. -/
def Holds (h : History α) (log : List α) : Prop :=
  h.newest <+: log ∧ min h.window log.length ≤ h.size

theorem Holds.empty (h : History α) (he : h.newest = []) : h.Holds [] := by
  constructor
  · rw [he]
  · rw [List.length_nil, Nat.min_zero]
    exact Nat.zero_le _

@[simp] theorem window_push (h : History α) (a : α) : (h.push a).window = h.window := by
  unfold push
  split <;> rfl

theorem Holds.push {h : History α} {log : List α} (hh : h.Holds log) (a : α) :
    (h.push a).Holds (a :: log) := by
  obtain ⟨hp, hs⟩ := hh
  have hle := hp.length_le
  simp only [size] at hs
  rw [Holds, window_push]
  cases hf : h.isFull with
  | false =>
    have hn : (h.push a).newest = a :: h.newest := by simp [History.push, hf]
    constructor
    · rw [hn]
      exact List.prefix_cons_inj a |>.mpr hp
    · simp only [size, hn, List.length_cons]
      omega
  | true =>
    have hn : (h.push a).newest = a :: h.newest.take h.window := by
      simp [History.push, hf, compact]
    have hc : 2 * h.window ≤ h.newest.length := of_decide_eq_true hf
    constructor
    · rw [hn]
      exact List.prefix_cons_inj a |>.mpr ((List.take_prefix _ _).trans hp)
    · simp only [size, hn, List.length_cons, List.length_take]
      omega

/-- Within its window a history answers as the whole log would. -/
theorem Holds.ago? {h : History α} {log : List α} (hh : h.Holds log) {n : Nat} (h0 : 0 < n)
    (hn : n ≤ h.window) : h.ago? n = log[n - 1]? := by
  obtain ⟨hp, hs⟩ := hh
  simp only [size] at hs
  rw [History.ago?, if_neg (by omega)]
  by_cases hl : n - 1 < h.newest.length
  · rw [List.getElem?_eq_getElem hl, hp.getElem hl, List.getElem?_eq_getElem]
  · have hle := hp.length_le
    rw [List.getElem?_eq_none (by omega), List.getElem?_eq_none (by omega)]

theorem Holds.take {h : History α} {log : List α} (hh : h.Holds log) {n : Nat} (hn : n ≤ h.window) :
    h.newest.take n = log.take n := by
  obtain ⟨hp, hs⟩ := hh
  have hnewest := List.prefix_iff_eq_take.mp hp
  simp only [size] at hs
  rw [hnewest, List.take_take]
  by_cases hle : n ≤ h.newest.length
  · rw [Nat.min_eq_left hle]
  · rw [Nat.min_eq_right (by omega), List.take_of_length_le (by omega), List.take_of_length_le (by omega)]

theorem Holds.compact {h : History α} {log : List α} (hh : h.Holds log) : h.compact.Holds log := by
  obtain ⟨hp, hs⟩ := hh
  have hn : h.compact.newest = h.newest.take h.window := rfl
  have hw : h.compact.window = h.window := rfl
  refine ⟨(List.take_prefix _ _).trans hp, ?_⟩
  simp only [size] at hs
  rw [hw, size, hn, List.length_take]
  omega

theorem compact_compact (h : History α) : h.compact.compact = h.compact := by
  simp only [History.compact, List.take_take, Nat.min_self]

/-- Compacting in place: the newest window is copied to the front, and what is behind it is cut off. -/
theorem toList_compact (h : History α) :
    h.compact.toList =
      (h.toList.drop (h.size - h.window) ++ h.toList.drop h.window).take h.window := by
  have hlen : (h.toList.drop (h.size - h.window)).length = min h.window h.size := by
    rw [List.length_drop, toList, List.length_reverse, size]
    omega
  have hkept : h.compact.toList = h.toList.drop (h.size - h.window) := by
    rw [toList, toList, History.compact, size, List.reverse_take]
  rw [hkept]
  by_cases hw : h.window ≤ h.size
  · rw [List.take_left' (by rw [hlen, Nat.min_eq_left hw])]
  · have hbehind : h.toList.drop h.window = [] := by
      apply List.drop_eq_nil_of_le
      rw [toList, List.length_reverse]
      exact (Nat.lt_of_not_le hw).le
    rw [hbehind, List.append_nil, List.take_of_length_le (by omega)]

/-- What changes a history. -/
inductive Call (α : Type) where
  | push (a : α)
  | compact
  | clear

def call (h : History α) : Call α → History α
  | .push a => h.push a
  | .compact => h.compact
  | .clear => h.clear

def after (h : History α) (calls : List (Call α)) : History α := calls.foldl call h

def Call.isCompact : Call α → Bool
  | .compact => true
  | _ => false

/-- A log that forgets nothing until it is cleared, oldest first. -/
def Call.note (log : List α) : Call α → List α
  | .push a => log ++ [a]
  | .compact => log
  | .clear => []

/-- All items pushed since the last clear, oldest first. -/
def recorded (calls : List (Call α)) : List α := calls.foldl Call.note []

/-- Whether a history of a window holds the end of a log, oldest first, and at most two windows of it. -/
structure Logs (w : Nat) (h : History α) (log : List α) : Prop where
  window : h.window = w
  holds : h.Holds log.reverse
  size_le : h.size ≤ 2 * w

variable {w : Nat} {h : History α} {log : List α}

theorem size_push_le (h : History α) (hw : 0 < h.window) (a : α) :
    (h.push a).size ≤ 2 * h.window := by
  by_cases hf : h.isFull
  · have hn : (h.push a).newest = a :: h.newest.take h.window := by simp [History.push, hf, History.compact]
    rw [size, hn, List.length_cons, List.length_take]
    omega
  · have hroom : h.size < h.capacity := by simpa [isFull] using hf
    rw [push_of_room h a hroom]
    exact hroom

theorem Logs.call (hl : Logs w h log) (hw : 0 < w) (c : Call α) :
    Logs w (h.call c) (c.note log) := by
  obtain ⟨rfl, hh, hs⟩ := hl
  cases c with
  | push a =>
    refine ⟨window_push h a, ?_, size_push_le h hw a⟩
    rw [Call.note, List.reverse_append]
    exact hh.push a
  | compact =>
    refine ⟨rfl, hh.compact, ?_⟩
    exact (List.length_take_le' _ _).trans hs
  | clear => exact ⟨rfl, .empty _ rfl, Nat.zero_le _⟩

theorem Logs.after (hl : Logs w h log) (hw : 0 < w) (calls : List (Call α)) :
    Logs w (h.after calls) (calls.foldl Call.note log) := by
  induction calls generalizing h log with
  | nil => exact hl
  | cons c calls ih => exact ih (hl.call hw c)

theorem Logs.ofWindow (w : Nat) : Logs (max w 1) (History.ofWindow w : History α) [] :=
  ⟨rfl, .empty _ rfl, Nat.zero_le _⟩

theorem Logs.suffix (hl : Logs w h log) : h.toList <:+ log := by
  rw [toList, ← List.reverse_prefix, List.reverse_reverse]
  exact hl.holds.1

theorem Logs.latest (hl : Logs w h log) {n : Nat} (hn : n ≤ w) : h.latest n = log.rtake n := by
  rw [History.latest, hl.holds.take (hn.trans_eq hl.window.symm), List.rtake_eq_reverse_take_reverse]

theorem Logs.ago? (hl : Logs w h log) {n : Nat} (hn : n ≤ w) :
    h.ago? n = if n = 0 then none else log.reverse[n - 1]? := by
  split_ifs with h0
  · rw [h0]
    rfl
  · exact hl.holds.ago? (Nat.pos_of_ne_zero h0) (hn.trans_eq hl.window.symm)

theorem recorded_filter (calls : List (Call α)) :
    recorded (calls.filter fun c => !c.isCompact) = recorded calls := by
  rw [recorded, recorded]
  generalize ([] : List α) = log
  induction calls generalizing log with
  | nil => rfl
  | cons c calls ih => cases c <;> exact ih _

/-- A history holds the end of the log of all items since it was last cleared, at most two windows and
at least one if so much was pushed. So within its window it answers as the log would, and compacting it
more or less often changes none of these answers. -/
theorem answers_of_log (w : Nat) (calls : List (Call α)) :
    let h := (ofWindow w).after calls
    let log := recorded calls
    (h.toList <:+ log ∧ min (max w 1) log.length ≤ h.size ∧ h.size ≤ 2 * max w 1) ∧
    (∀ n ≤ max w 1, h.latest n = log.rtake n ∧
      h.ago? n = if n = 0 then none else log.reverse[n - 1]?) ∧
    (h.compact.toList =
        (h.toList.drop (h.size - h.window) ++ h.toList.drop h.window).take h.window ∧
      h.compact.compact = h.compact) ∧
    ∀ calls' : List (Call α),
      (calls'.filter fun c => !c.isCompact) = (calls.filter fun c => !c.isCompact) →
      ∀ n ≤ max w 1, ((ofWindow w).after calls').latest n = h.latest n ∧
        ((ofWindow w).after calls').ago? n = h.ago? n := by
  intro h log
  have hw : 0 < max w 1 := by omega
  have hlogs (calls : List (Call α)) : Logs (max w 1) ((ofWindow w).after calls) (recorded calls) :=
    (Logs.ofWindow w).after hw calls
  have hl : Logs (max w 1) h log := hlogs calls
  have hsize := hl.holds.2
  rw [hl.window, List.length_reverse] at hsize
  refine ⟨⟨hl.suffix, hsize, hl.size_le⟩, fun n hn => ⟨hl.latest hn, hl.ago? hn⟩,
    ⟨toList_compact h, compact_compact h⟩, ?_⟩
  intro calls' hcalls n hn
  have hsame : recorded calls' = recorded calls := by
    rw [← recorded_filter calls', hcalls, recorded_filter]
  have hl' := hlogs calls'
  rw [hsame] at hl'
  exact ⟨(hl'.latest hn).trans (hl.latest hn).symm, (hl'.ago? hn).trans (hl.ago? hn).symm⟩

/-- A window of two after a clear: compacted once more on the way, the history holds other items in the
end and answers alike. -/
theorem answers_of_log_compacted :
    let calls : List (Call Nat) :=
      [.push 9, .clear, .push 1, .push 2, .push 3, .push 4, .push 5]
    let calls' : List (Call Nat) :=
      [.push 9, .compact, .clear, .push 1, .push 2, .push 3, .compact, .push 4, .push 5]
    let h := (ofWindow 2 : History Nat).after calls
    let h' := (ofWindow 2 : History Nat).after calls'
    2 ≤ max 2 1 ∧
      ((calls'.filter fun c => !c.isCompact) = calls.filter fun c => !c.isCompact) ∧
      h.toList = [3, 4, 5] ∧ h'.toList = [2, 3, 4, 5] ∧
      h.latest 2 = [4, 5] ∧ h.ago? 2 = some 4 ∧ h'.latest 2 = [4, 5] ∧ h'.ago? 2 = some 4 := by
  intro calls calls' h h'
  obtain ⟨-, hlog, -, hsame⟩ := answers_of_log 2 calls
  obtain ⟨hlatest, hago⟩ := hlog 2 (by decide)
  obtain ⟨hlatest', hago'⟩ := hsame calls' rfl 2 (by decide)
  exact ⟨by decide, rfl, by decide, by decide, hlatest, hago, hlatest'.trans hlatest, hago'.trans hago⟩

end ToneWatch.History
