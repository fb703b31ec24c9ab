import Mathlib
import ToneWatch.Proofs.Morse.Alternation
import ToneWatch.Proofs.Morse.Reception

namespace ToneWatch.Morse

/-- A batch of symbols without the gaps at its start. -/
def fromMark (symbols : List Symbol) : List Symbol :=
  symbols.dropWhile fun s => !s.isMark

theorem filter_fromMark (symbols : List Symbol) :
    (fromMark symbols).filter Symbol.isMark = symbols.filter Symbol.isMark := by
  unfold fromMark
  induction symbols with
  | nil => rfl
  | cons s symbols ih =>
    cases hs : s.isMark with
    | true => simp [hs]
    | false => simpa [hs] using ih

theorem filter_flatten_fromMark (batches : List (List Symbol)) :
    (batches.map fromMark).flatten.filter Symbol.isMark = batches.flatten.filter Symbol.isMark := by
  induction batches with
  | nil => rfl
  | cons batch batches ih =>
    rw [List.map_cons, List.flatten_cons, List.flatten_cons, List.filter_append, List.filter_append,
      filter_fromMark, ih]

/-- Which symbols of a batch get past the pull before it: all but a gap at its start. -/
def survives : List Symbol → List Bool
  | [] => []
  | s :: later => s.isMark :: later.map fun _ => true

/-- The symbols that are chosen. -/
def pick (symbols : List Symbol) (chosen : List Bool) : List Symbol :=
  ((symbols.zip chosen).filter Prod.snd).map Prod.fst

theorem length_survives (symbols : List Symbol) : (survives symbols).length = symbols.length := by
  cases symbols with
  | nil => rfl
  | cons s later => simp [survives]

theorem pick_cons (s : Symbol) (symbols : List Symbol) (b : Bool) (chosen : List Bool) :
    pick (s :: symbols) (b :: chosen) = (if b then [s] else []) ++ pick symbols chosen := by
  cases b <;> rfl

theorem pick_append {symbols : List Symbol} {chosen : List Bool}
    (h : symbols.length = chosen.length) (more : List Symbol) (others : List Bool) :
    pick (symbols ++ more) (chosen ++ others) = pick symbols chosen ++ pick more others := by
  simp [pick, List.zip_append h]

theorem pick_all (symbols : List Symbol) : pick symbols (symbols.map fun _ => true) = symbols := by
  induction symbols with
  | nil => rfl
  | cons s symbols ih =>
    rw [List.map_cons, pick_cons, ih]
    rfl

/-- At the start of a batch there is at most one gap. -/
theorem fromMark_eq_pick {symbols : List Symbol} (h : symbols.IsChain Symbol.Apart) :
    fromMark symbols = pick symbols (survives symbols) := by
  cases symbols with
  | nil => rfl
  | cons s later =>
    rw [survives, pick_cons, pick_all]
    cases hs : s.isMark with
    | true => simp [fromMark, hs]
    | false =>
      cases later with
      | nil => simp [fromMark, hs]
      | cons s' later =>
        have hmark : s'.isMark = true := by
          have hapart := (List.isChain_cons.mp h).1 s' rfl
          rw [Symbol.Apart, hs] at hapart
          exact hapart.resolve_left Bool.false_ne_true
        simp [fromMark, hs, hmark]

theorem flatten_fromMark {batches : List (List Symbol)}
    (h : batches.flatten.IsChain Symbol.Apart) :
    (batches.map fromMark).flatten = pick batches.flatten (batches.flatMap survives) := by
  induction batches with
  | nil => rfl
  | cons batch batches ih =>
    rw [List.flatten_cons] at h
    obtain ⟨hfirst, hlater, -⟩ := List.isChain_append.mp h
    rw [List.map_cons, List.flatten_cons, List.flatten_cons, List.flatMap_cons,
      pick_append (length_survives batch).symm, fromMark_eq_pick hfirst, ih hlater]

/-- Whether a choice leaves no mark out. -/
abbrev KeepsMarks (symbols : List Symbol) (chosen : List Bool) : Prop :=
  List.Forall₂ (fun s b => s.isMark = true → b = true) symbols chosen

theorem keepsMarks_survives (batches : List (List Symbol)) :
    KeepsMarks batches.flatten (batches.flatMap survives) := by
  induction batches with
  | nil => exact .nil
  | cons batch batches ih =>
    rw [List.flatten_cons, List.flatMap_cons]
    refine List.rel_append ?_ ih
    cases batch with
    | nil => exact .nil
    | cons s later =>
      refine .cons (fun h => h) ?_
      rw [List.forall₂_map_right_iff]
      exact List.forall₂_same.mpr fun _ _ _ => rfl

theorem head_pick {symbols : List Symbol} {b : List Bool} (h : KeepsMarks symbols b)
    (hs : ∀ s ∈ symbols.head?, s.isMark = true) : ∀ s ∈ (pick symbols b).head?, s.isMark = true := by
  cases h with
  | nil => exact hs
  | @cons s x symbols b hx h =>
    have hmark := hs s rfl
    rw [pick_cons, hx hmark]
    exact hs

/-- Where no two gaps follow each other, what is picked tells which gaps were. -/
theorem pick_inj {symbols : List Symbol} (h : symbols.IsChain Symbol.Apart) {b c : List Bool}
    (hb : KeepsMarks symbols b) (hc : KeepsMarks symbols c)
    (heq : pick symbols b = pick symbols c) : b = c := by
  induction hb generalizing c with
  | nil =>
    cases hc
    rfl
  | @cons s x symbols b hx hb ih =>
    cases hc with
    | @cons _ y _ c hy hc =>
      obtain ⟨hnext, hrest⟩ := List.isChain_cons.mp h
      have hmark : s.isMark = false → ∀ s' ∈ symbols.head?, s'.isMark = true := fun hs s' hs' =>
        (hnext s' hs').resolve_left (Bool.eq_false_iff.mp hs)
      rw [pick_cons, pick_cons] at heq
      cases x with
      | true =>
        cases y with
        | true => rw [ih hrest hc ((List.cons_inj_right s).mp heq)]
        | false =>
          have hs : s.isMark = false := Bool.eq_false_iff.mpr (mt hy Bool.false_ne_true)
          have heq : s :: pick symbols b = pick symbols c := heq
          have hhead := head_pick hc (hmark hs) s (heq ▸ rfl)
          rw [hs] at hhead
          cases hhead
      | false =>
        cases y with
        | true =>
          have hs : s.isMark = false := Bool.eq_false_iff.mpr (mt hx Bool.false_ne_true)
          have heq : pick symbols b = s :: pick symbols c := heq
          have hhead := head_pick hb (hmark hs) s (heq ▸ rfl)
          rw [hs] at hhead
          cases hhead
        | false => rw [ih hrest hc heq]

namespace RunTimer

/-- The symbols that are completed in each of some stretches of observations. -/
def batches (t : RunTimer) : List (List Bool) → List (List Symbol)
  | [] => []
  | tones :: later => (feed step t tones).2 :: (feed step t tones).1.batches later

theorem flatten_batches (t : RunTimer) (stretches : List (List Bool)) :
    (t.batches stretches).flatten = (feed step t stretches.flatten).2 := by
  induction stretches generalizing t with
  | nil => rfl
  | cons tones later ih => rw [batches, List.flatten_cons, List.flatten_cons, feed_append, ih]

end RunTimer

namespace Outbox

theorem length_offer (o : Outbox) (s : Symbol) :
    o.symbols.length ≤ (o.offer s).1.symbols.length := by
  unfold offer
  split_ifs with hlead hroom hend
  · exact le_rfl
  · rw [List.length_append]
    exact Nat.le_add_right _ _
  · have hmax : maxMessage = 500 := rfl
    rw [List.length_append, List.length_dropLast, List.length_singleton]
    omega
  · exact le_rfl

theorem full_feed_offer (o : Outbox) (ho : maxMessage ≤ o.symbols.length) (symbols : List Symbol) :
    maxMessage ≤ (feed offer o symbols).1.symbols.length :=
  feed_invariant offer (fun o => maxMessage ≤ o.symbols.length)
    (fun o s h => h.trans (length_offer o s)) o ho symbols

/-- An outbox that was empty and never full holds what it was offered from the first mark on. -/
theorem feed_offer_of_not_full (o : Outbox) (ho : o.symbols = []) (symbols : List Symbol)
    (hl : (feed offer o symbols).1.symbols.length < maxMessage) :
    (feed offer o symbols).1.symbols = fromMark symbols := by
  obtain ⟨lead, hlead, hsplit⟩ :
      ∃ lead, (∀ s ∈ lead, s.isMark = false) ∧ lead ++ fromMark symbols = symbols := by
    refine ⟨symbols.takeWhile fun s => !s.isMark, ?_, List.takeWhile_append_dropWhile⟩
    intro s hs
    simpa using List.mem_takeWhile_imp hs
  have hfirst : ∀ s ∈ (fromMark symbols).head?, s.isMark = true := by
    intro s hs
    have h := List.head?_dropWhile_not (fun s => !Symbol.isMark s) symbols
    rw [fromMark, Option.mem_def] at hs
    rw [hs] at h
    simpa using h
  generalize fromMark symbols = message at hsplit hfirst ⊢
  subst hsplit
  by_cases hfits : message.length ≤ maxMessage
  · rw [feed_offer_message o ho lead message hlead hfirst hfits]
  · have hcut : lead ++ message = (lead ++ message.take maxMessage) ++ message.drop maxMessage := by
      rw [List.append_assoc, List.take_append_drop]
    have hfull := feed_offer_message o ho lead (message.take maxMessage) hlead
      (by rwa [List.head?_take, if_neg (by decide)]) (List.length_take_le _ _)
    rw [hcut, feed_append, hfull] at hl
    have hstays := full_feed_offer { o with symbols := message.take maxMessage }
      (by rw [List.length_take]; omega) (message.drop maxMessage)
    exact absurd hl (Nat.not_lt_of_le hstays)

end Outbox

namespace Receiver

/-- What each pull gives if frames are fed in stretches and a pull follows each of them. -/
def drains (r : Receiver) : List (List Frame) → List (List Symbol)
  | [] => []
  | stretch :: later =>
    let (r, batch) := (feed process r stretch).1.pull
    batch :: r.drains later

/-- The symbols that are completed in each stretch, which no pull changes. -/
def completes (r : Receiver) (schedule : List (List Frame)) : List (List Symbol) :=
  r.timer.batches (schedule.map fun stretch => stretch.map r.hears)

theorem flatten_completes (r : Receiver) (schedule : List (List Frame)) :
    (r.completes schedule).flatten =
      (feed RunTimer.step r.timer (schedule.flatten.map r.hears)).2 := by
  rw [completes, RunTimer.flatten_batches, ← List.map_flatten]

/-- A pull gives what was completed since the one before it, from the first mark on. -/
theorem drains_of_not_full (r : Receiver) (ha : r.analysing = true) (ho : r.outbox.symbols = [])
    (schedule : List (List Frame))
    (hl : ∀ batch ∈ r.drains schedule, batch.length < Outbox.maxMessage) :
    r.drains schedule = (r.completes schedule).map fromMark := by
  induction schedule generalizing r with
  | nil => rfl
  | cons stretch later ih =>
    have hfed : feed process r stretch = _ := (feed_process r ha stretch).trans (feed_observe r _)
    rw [drains, completes, List.map_cons, RunTimer.batches, List.map_cons]
    rw [drains] at hl
    rw [hfed] at hl ⊢
    obtain ⟨hfirst, hlater⟩ := List.forall_mem_cons.mp hl
    have hbatch := Outbox.feed_offer_of_not_full r.outbox ho _ hfirst
    exact congrArg₂ List.cons hbatch (ih _ ha rfl hlater)

/-- Of all symbols that are completed, those are drained that get past the pulls. -/
theorem flatten_drains (r : Receiver) (ha : r.analysing = true) (ho : r.outbox.symbols = [])
    (ht : r.timer.phase.Regular) (schedule : List (List Frame))
    (hl : ∀ batch ∈ r.drains schedule, batch.length < Outbox.maxMessage) :
    (r.completes schedule).flatten.IsChain Symbol.Apart ∧
      (r.drains schedule).flatten =
        pick (r.completes schedule).flatten ((r.completes schedule).flatMap survives) := by
  have hapart : (r.completes schedule).flatten.IsChain Symbol.Apart := by
    rw [flatten_completes]
    exact (r.timer.feed_apart ht _).1
  rw [drains_of_not_full r ha ho schedule hl]
  exact ⟨hapart, flatten_fromMark hapart⟩

/-- When pulls come makes no difference to the marks, and none at all exactly if the same gaps come first
after a pull. -/
theorem drains_agree_iff {m : MorseSettings} {a : AnalysisSettings} {r : Receiver}
    (hr : create m a = .ok r) {p q : List (List Frame)} (hpq : p.flatten = q.flatten)
    (hp : ∀ batch ∈ r.start.drains p, batch.length < Outbox.maxMessage)
    (hq : ∀ batch ∈ r.start.drains q, batch.length < Outbox.maxMessage) :
    (r.start.drains p).flatten.filter Symbol.isMark =
        (r.start.drains q).flatten.filter Symbol.isMark ∧
      ((r.start.drains p).flatten = (r.start.drains q).flatten ↔
        (r.start.completes p).flatMap survives = (r.start.completes q).flatMap survives) := by
  obtain ⟨ho, ht⟩ : r.start.outbox.symbols = [] ∧ r.start.timer.phase.Regular := by
    obtain ⟨-, rfl⟩ := create_ok hr
    exact ⟨rfl, RunTimer.regular_ofTiming _⟩
  have hsame : (r.start.completes p).flatten = (r.start.completes q).flatten := by
    rw [flatten_completes, flatten_completes, hpq]
  constructor
  · rw [drains_of_not_full _ rfl ho p hp, drains_of_not_full _ rfl ho q hq, filter_flatten_fromMark,
      filter_flatten_fromMark, hsame]
  · obtain ⟨hapart, hdrained⟩ := flatten_drains _ rfl ho ht p hp
    have hkeep := keepsMarks_survives (r.start.completes p)
    rw [hdrained, (flatten_drains _ rfl ho ht q hq).2, hsame]
    rw [hsame] at hapart hkeep
    constructor
    · exact pick_inj hapart hkeep (keepsMarks_survives _)
    · intro h
      rw [h]

/-- A pull between a dot and the gap after it makes one letter of two. -/
theorem drains_of_two_dots :
    let dot := List.replicate 9 (Frame.ofList [1950]) ++ List.replicate 9 .silent
    let gap := List.replicate 18 Frame.silent
    ∃ r, create {} .forMorse = .ok r ∧
      r.start.drains [dot ++ gap ++ dot] = [[.mark .dot, .letterGap, .mark .dot]] ∧
      r.start.drains [dot, gap ++ dot] = [[.mark .dot], [.mark .dot]] ∧
      (r.start.drains [dot ++ gap ++ dot]).flatten.filter Symbol.isMark =
        (r.start.drains [dot, gap ++ dot]).flatten.filter Symbol.isMark := by
  intro dot gap
  let r : Receiver := { settings := {}, timer := .ofTiming ⟨9, 7⟩ }
  have hr : create {} .forMorse = .ok r := create_default
  have hp : r.start.drains [dot ++ gap ++ dot] = [[.mark .dot, .letterGap, .mark .dot]] := by
    decide +kernel
  have hq : r.start.drains [dot, gap ++ dot] = [[.mark .dot], [.mark .dot]] := by decide +kernel
  have hagree := drains_agree_iff hr (p := [dot ++ gap ++ dot]) (q := [dot, gap ++ dot]) (by simp)
    (by rw [hp]; decide) (by rw [hq]; decide)
  exact ⟨r, hr, hp, hq, hagree.1⟩

end Receiver

end ToneWatch.Morse
