import Mathlib
import ToneWatch.Consumer

namespace ToneWatch

variable {σ α ε : Type}

@[simp] theorem feed_nil (step : σ → α → σ × Option ε) (s : σ) : feed step s [] = (s, []) := rfl

theorem feed_cons (step : σ → α → σ × Option ε) (s : σ) (a : α) (as : List α) :
    feed step s (a :: as) =
      ((feed step (step s a).1 as).1, (step s a).2.toList ++ (feed step (step s a).1 as).2) := rfl

theorem feed_append (step : σ → α → σ × Option ε) (s : σ) (as bs : List α) :
    feed step s (as ++ bs) =
      ((feed step (feed step s as).1 bs).1,
        (feed step s as).2 ++ (feed step (feed step s as).1 bs).2) := by
  induction as generalizing s with
  | nil => simp
  | cons a as ih => simp [feed_cons, ih]

theorem feed_concat (step : σ → α → σ × Option ε) (s : σ) (as : List α) (a : α) :
    feed step s (as ++ [a]) =
      ((step (feed step s as).1 a).1,
        (feed step s as).2 ++ (step (feed step s as).1 a).2.toList) := by
  rw [feed_append, feed_cons]
  simp

theorem feed_still (step : σ → α → σ × Option ε) (s : σ) (as : List α)
    (h : ∀ a ∈ as, step s a = (s, none)) : feed step s as = (s, []) := by
  induction as with
  | nil => rfl
  | cons a as ih =>
    have hs := h a (by simp)
    rw [feed_cons, hs, ih fun b hb => h b (by simp [hb])]
    rfl

/-- What holds before a run and is kept by every step holds after it. -/
theorem feed_invariant (step : σ → α → σ × Option ε) (P : σ → Prop)
    (hstep : ∀ s a, P s → P (step s a).1) (s : σ) (hs : P s) (as : List α) :
    P (feed step s as).1 := by
  induction as generalizing s with
  | nil => exact hs
  | cons a as ih => exact ih _ (hstep s a hs)

/-- What every step keeps and what its event then satisfies, all events of a run satisfy. -/
theorem feed_events_forall (step : σ → α → σ × Option ε) (P : σ → Prop) (Q : ε → Prop)
    (hstep : ∀ s a, P s → P (step s a).1 ∧ ∀ e ∈ (step s a).2, Q e) (s : σ) (hs : P s)
    (as : List α) : ∀ e ∈ (feed step s as).2, Q e := by
  induction as generalizing s with
  | nil => simp
  | cons a as ih =>
    obtain ⟨hnext, hevent⟩ := hstep s a hs
    intro e he
    rw [feed_cons, List.mem_append, Option.mem_toList] at he
    rcases he with he | he
    · exact hevent e he
    · exact ih _ hnext e he

/-- What each item is answered with. -/
def replies (step : σ → α → σ × Option ε) (s : σ) : List α → List (Option ε)
  | [] => []
  | a :: as => (step s a).2 :: replies step (step s a).1 as

@[simp] theorem length_replies (step : σ → α → σ × Option ε) (s : σ) (as : List α) :
    (replies step s as).length = as.length := by
  induction as generalizing s with
  | nil => rfl
  | cons a as ih => rw [replies, List.length_cons, ih, List.length_cons]

theorem replies_map {δ : Type} (step : σ → α → σ × Option ε) (g : ε → δ) (s : σ) (as : List α) :
    replies (fun s a => ((step s a).1, (step s a).2.map g)) s as =
      (replies step s as).map (Option.map g) := by
  induction as generalizing s with
  | nil => rfl
  | cons a as ih => rw [replies, replies, List.map_cons, ih]

theorem feed_events (step : σ → α → σ × Option ε) (s : σ) (as : List α) :
    (feed step s as).2 = (replies step s as).reduceOption := by
  induction as generalizing s with
  | nil => rfl
  | cons a as ih =>
    rw [feed_cons, replies]
    cases h : (step s a).2 <;> simp [List.reduceOption_cons_of_some, List.reduceOption_cons_of_none, ih]

section

variable {τ : Type}

/-- Steps that a relation between their states accompanies answer alike, if it joins only states with
equal replies. -/
theorem replies_simulates (step : σ → α → σ × Option ε) (step' : τ → α → τ × Option ε)
    (R : σ → τ → Prop)
    (hstep : ∀ s t a, R s t → (step s a).2 = (step' t a).2 ∧ R (step s a).1 (step' t a).1)
    {s : σ} {t : τ} (h : R s t) (as : List α) :
    replies step s as = replies step' t as ∧ R (feed step s as).1 (feed step' t as).1 := by
  induction as generalizing s t with
  | nil => exact ⟨rfl, h⟩
  | cons a as ih =>
    obtain ⟨hreply, hnext⟩ := hstep s t a h
    obtain ⟨hreplies, hlast⟩ := ih hnext
    rw [replies, replies, hreply, hreplies]
    exact ⟨rfl, hlast⟩

end

/-- States that a relation joins answer alike, if it lasts and joins only equal replies. -/
theorem replies_congr (step : σ → α → σ × Option ε) (R : σ → σ → Prop)
    (hstep : ∀ s t a, R s t → (step s a).2 = (step t a).2 ∧ R (step s a).1 (step t a).1)
    (s t : σ) (h : R s t) (as : List α) : replies step s as = replies step t as :=
  (replies_simulates step step R hstep h as).1

end ToneWatch
