import Mathlib
import ToneWatch.Mailbox

namespace ToneWatch.Mailbox

/-- What may be done with a mailbox: by its senders, which also pass on matches and messages, and by
its receiver. -/
inductive Call where
  | send (sender : Nat) (event : String)
  | onMatch (sender : Nat) (name : String)
  | onMessage (sender : Nat) (message : String)
  | clone (sender : Nat)
  | receive
  | drain
  | dropReceiver

/-- The event that a call sends, behind its sender. -/
def Call.sent? : Call → Option (Nat × String)
  | send p e => some (p, e)
  | onMatch p e => some (p, e)
  | onMessage p e => some (p, e)
  | _ => none

/-- The mailbox after a call and the events that the receiver is given. -/
def call (m : Mailbox) : Call → Mailbox × List String
  | .send p e => (m.send p e, [])
  | .onMatch p e => (m.send p e, [])
  | .onMessage p e => (m.send p e, [])
  | .clone p => (m.clone p, [])
  | .receive => (m.receive.1, m.receive.2.toList)
  | .drain => (m.drain.1, m.drain.2.getD [])
  | .dropReceiver => (m.dropReceiver, [])

/-- How an event leaves the queue. -/
inductive Fate where
  | received
  | evicted (sender : Nat)
  deriving DecidableEq

/-- The fates of the events that leave the queue in a call, oldest first. -/
def fatesOf (m : Mailbox) (c : Call) : List Fate :=
  match c.sent? with
  | some (p, _) => if m.isFull then [.evicted p] else []
  | none => (m.call c).2.map fun _ => .received

def after (m : Mailbox) : List Call → Mailbox
  | [] => m
  | c :: cs => (m.call c).1.after cs

/-- The events that the receiver is given, in order. -/
def given (m : Mailbox) : List Call → List String
  | [] => []
  | c :: cs => (m.call c).2 ++ (m.call c).1.given cs

def fates (m : Mailbox) : List Call → List Fate
  | [] => []
  | c :: cs => m.fatesOf c ++ (m.call c).1.fates cs

def sent (calls : List Call) : List String :=
  calls.filterMap fun c => c.sent?.map Prod.snd

/-- The events that are received if they leave the queue in these ways. -/
def received : List String → List Fate → List String
  | e :: es, .received :: fs => e :: received es fs
  | _ :: es, .evicted _ :: fs => received es fs
  | _, _ => []

/-- The tries of a send: there is room, or an event is evicted and the rest of the tries follows. -/
inductive Tries (sender : Nat) (event : String) : Mailbox → Nat → Mailbox → Prop
  | put {m m' : Mailbox} (h : m.put? event = some m') : Tries sender event m 1 m'
  | evict {m m' : Mailbox} {tries : Nat} (h : m.put? event = none)
      (rest : Tries sender event (m.evict sender) tries m') : Tries sender event m (tries + 1) m'

variable {m : Mailbox}

theorem put?_of_full {event : String} (h : m.isFull = true) : m.put? event = none := by
  rw [put?, if_pos h]

theorem put?_of_room {event : String} (h : m.isFull = false) :
    m.put? event = some { m with queued := m.queued ++ [event] } := by
  rw [put?, h, if_neg Bool.false_ne_true]

theorem evict_of_full (h : m.isFull = true) (sender : Nat) :
    m.evict sender =
      { m with queued := m.queued.drop 1, dropped := m.dropped.modify sender (· + 1) } := by
  have hcapacity := m.capacity_pos
  cases hq : m.queued with
  | nil => simp [isFull, hq, Nat.ne_of_gt hcapacity] at h
  | cons e rest => rw [evict, hq, List.drop_one, List.tail_cons]

theorem isFull_evict (hm : m.queued.length ≤ m.capacity) (h : m.isFull = true) (sender : Nat) :
    (m.evict sender).isFull = false := by
  have hcapacity := m.capacity_pos
  rw [evict_of_full h, isFull, List.length_drop, decide_eq_false_iff_not]
  dsimp only
  omega

theorem send_eq (m : Mailbox) (sender : Nat) (event : String) :
    m.send sender event = (m.put? event).getD ((m.evict sender).send sender event) := by
  rw [send]
  split
  · rename_i h
    rw [h, Option.getD_some]
  · rename_i h
    rw [h, Option.getD_none]

theorem send_of_room (h : m.isFull = false) (sender : Nat) (event : String) :
    m.send sender event = { m with queued := m.queued ++ [event] } := by
  rw [send_eq, put?_of_room h, Option.getD_some]

theorem send_of_full (hm : m.queued.length ≤ m.capacity) (h : m.isFull = true) (sender : Nat)
    (event : String) :
    m.send sender event =
      { m with
        queued := m.queued.drop 1 ++ [event]
        dropped := m.dropped.modify sender (· + 1) } := by
  rw [send_eq, put?_of_full h, Option.getD_none, send_of_room (isFull_evict hm h sender),
    evict_of_full h]

/-- A send succeeds at the second try at the latest. -/
theorem tries_send (hm : m.queued.length ≤ m.capacity) (sender : Nat) (event : String) :
    Tries sender event m (if m.isFull then 2 else 1) (m.send sender event) := by
  cases h : m.isFull with
  | false =>
    rw [send_of_room h]
    exact .put (put?_of_room h)
  | true =>
    rw [send_of_full hm h]
    refine .evict (put?_of_full h) (.put ?_)
    rw [put?_of_room (isFull_evict hm h sender), evict_of_full h]

/-- As long as there is a receiver, it gets the oldest event, or none if none waits. -/
theorem receive_of_live (h : m.hasReceiver = true) :
    m.receive = ({ m with queued := m.queued.tail }, m.queued.head?) := by
  obtain ⟨capacity, queued, dropped, live, hcapacity⟩ := m
  change live = true at h
  subst h
  cases queued with
  | nil => rfl
  | cons e rest => rfl

theorem receive_of_dropped (h : m.hasReceiver = false) : m.receive = (m, none) := by
  rw [receive, h]

/-- As long as there is a receiver, it gets all that waits, oldest first. -/
theorem drain_of_live (h : m.hasReceiver = true) :
    m.drain = ({ m with queued := [] }, some m.queued) := by
  rw [drain, if_pos h]

theorem drain_of_dropped (h : m.hasReceiver = false) : m.drain = (m, none) := by
  rw [drain, h, if_neg Bool.false_ne_true]

theorem received_append {xs ys : List String} {fs gs : List Fate} (h : fs.length ≤ xs.length) :
    received (xs ++ ys) (fs ++ gs) = received xs fs ++ received (xs.drop fs.length ++ ys) gs := by
  induction fs generalizing xs with
  | nil => simp [received]
  | cons f fs ih =>
    cases xs with
    | nil => simp at h
    | cons x xs =>
      have hlen : fs.length ≤ xs.length := by simpa using h
      cases f <;> simp [received, ih hlen]

theorem received_all (xs ys : List String) :
    received (xs ++ ys) (xs.map fun _ => .received) = xs := by
  induction xs with
  | nil => simp [received]
  | cons x xs ih => rw [List.map_cons, List.cons_append, received, ih]

theorem received_sublist (xs : List String) (fs : List Fate) : (received xs fs).Sublist xs := by
  induction xs generalizing fs with
  | nil => simp [received]
  | cons x xs ih =>
    cases fs with
    | nil => simp [received]
    | cons f fs =>
      cases f with
      | received => exact (ih fs).cons_cons x
      | evicted p => exact (ih fs).cons x

/-- What calls make of a mailbox with what they send: how the oldest events leave it, what is left, and
what the receiver is given. -/
structure Settles (m : Mailbox) (events : List String) (fates : List Fate) (m' : Mailbox)
    (given : List String) : Prop where
  capacity : m'.capacity = m.capacity
  bounded : m'.queued.length ≤ m'.capacity
  leave : fates.length ≤ (m.queued ++ events).length
  queued : m'.queued = (m.queued ++ events).drop fates.length
  given_eq : given = received (m.queued ++ events) fates
  counts : ∀ (i v : Nat), m.dropped[i]? = some v →
    m'.dropped[i]? = some (v + fates.count (.evicted i))

theorem Settles.nil (hm : m.queued.length ≤ m.capacity) : Settles m [] [] m [] where
  capacity := rfl
  bounded := hm
  leave := Nat.zero_le _
  queued := (List.append_nil _).symm
  given_eq := by simp [received]
  counts _ _ h := h

theorem Settles.append {m₁ m₂ : Mailbox} {xs ys gs hs : List String} {fs es : List Fate}
    (h₁ : Settles m xs fs m₁ gs) (h₂ : Settles m₁ ys es m₂ hs) :
    Settles m (xs ++ ys) (fs ++ es) m₂ (gs ++ hs) where
  capacity := h₂.capacity.trans h₁.capacity
  bounded := h₂.bounded
  leave := by
    have hleave := h₂.leave
    rw [h₁.queued, List.length_append, List.length_drop] at hleave
    have := h₁.leave
    simp only [List.length_append] at *
    omega
  queued := by
    rw [h₂.queued, h₁.queued, ← List.append_assoc, List.length_append, ← List.drop_drop,
      List.drop_append_of_le_length h₁.leave]
  given_eq := by
    rw [h₁.given_eq, h₂.given_eq, h₁.queued, ← List.append_assoc, received_append h₁.leave]
  counts i v h := by
    rw [h₂.counts i _ (h₁.counts i v h), List.count_append, Nat.add_assoc]

theorem Settles.send (hm : m.queued.length ≤ m.capacity) (p : Nat) (e : String) :
    Settles m [e] (m.fatesOf (.send p e)) (m.send p e) [] := by
  have hfates : m.fatesOf (.send p e) = if m.isFull then [.evicted p] else [] := rfl
  have hcapacity := m.capacity_pos
  rw [hfates]
  cases h : m.isFull with
  | false =>
    have hroom : ¬ m.capacity ≤ m.queued.length := of_decide_eq_false h
    rw [send_of_room h, if_neg Bool.false_ne_true]
    exact {
      capacity := rfl
      bounded := by
        rw [List.length_append, List.length_singleton]
        dsimp only
        omega
      leave := Nat.zero_le _
      queued := rfl
      given_eq := by simp [received]
      counts := fun _ _ h => h }
  | true =>
    have hfull : m.capacity ≤ m.queued.length := of_decide_eq_true h
    obtain ⟨x, rest, hq⟩ := List.exists_cons_of_length_pos (hcapacity.trans_le hfull)
    rw [send_of_full hm h, if_pos rfl]
    exact {
      capacity := rfl
      bounded := by
        simp only [List.length_append, List.length_drop, List.length_singleton]
        omega
      leave := by simp
      queued := by simp [hq]
      given_eq := by simp [hq, received]
      counts := by
        intro i v hv
        rw [List.getElem?_modify, hv]
        by_cases hi : p = i <;> simp [hi] }

/-- The receiver takes the oldest events. -/
theorem Settles.take (hm : m.queued.length ≤ m.capacity) (n : Nat) :
    Settles m [] ((m.queued.take n).map fun _ => .received) { m with queued := m.queued.drop n }
      (m.queued.take n) where
  capacity := rfl
  bounded := by
    rw [List.length_drop]
    dsimp only
    omega
  leave := by simp
  queued := by
    rw [List.append_nil, List.length_map, List.length_take]
    obtain hle | hle := Nat.le_total n m.queued.length
    · rw [Nat.min_eq_left hle]
    · rw [Nat.min_eq_right hle, List.drop_of_length_le hle, List.drop_length]
  given_eq := by
    have h := received_all (m.queued.take n) (m.queued.drop n)
    rw [List.take_append_drop] at h
    rw [List.append_nil, h]
  counts i v h := by
    rw [List.count_eq_zero_of_not_mem (by simp), Nat.add_zero]
    exact h

theorem Settles.call (hm : m.queued.length ≤ m.capacity) (c : Call) :
    Settles m (sent [c]) (m.fatesOf c) (m.call c).1 (m.call c).2 := by
  cases c with
  | send p e => exact .send hm p e
  | onMatch p e => exact .send hm p e
  | onMessage p e => exact .send hm p e
  | clone p =>
    exact { Settles.nil hm with
      counts := fun i v h => List.getElem?_append_left (List.getElem?_eq_some_iff.mp h).1 ▸ h }
  | dropReceiver => exact { Settles.nil hm with }
  | receive =>
    have hfates : m.fatesOf .receive = (m.call .receive).2.map fun _ => .received := rfl
    rw [hfates, Mailbox.call]
    cases h : m.hasReceiver with
    | false =>
      rw [receive_of_dropped h]
      exact .nil hm
    | true =>
      have htake := Settles.take hm 1
      rw [List.take_one, List.drop_one] at htake
      rw [receive_of_live h]
      exact htake
  | drain =>
    have hfates : m.fatesOf .drain = (m.call .drain).2.map fun _ => .received := rfl
    rw [hfates, Mailbox.call]
    cases h : m.hasReceiver with
    | false =>
      rw [drain_of_dropped h]
      exact .nil hm
    | true =>
      have htake := Settles.take hm m.queued.length
      rw [List.take_length, List.drop_length] at htake
      rw [drain_of_live h]
      exact htake

theorem Settles.after (hm : m.queued.length ≤ m.capacity) (calls : List Call) :
    Settles m (sent calls) (m.fates calls) (m.after calls) (m.given calls) := by
  induction calls generalizing m with
  | nil => exact .nil hm
  | cons c cs ih =>
    have hc := Settles.call hm c
    have hsent : sent (c :: cs) = sent [c] ++ sent cs := List.filterMap_append (l := [c])
    rw [hsent]
    exact hc.append (ih hc.bounded)

theorem after_append (m : Mailbox) (cs ds : List Call) :
    m.after (cs ++ ds) = (m.after cs).after ds := by
  induction cs generalizing m with
  | nil => rfl
  | cons c cs ih => exact ih _

theorem hasReceiver_send (hm : m.queued.length ≤ m.capacity) (p : Nat) (e : String) :
    (m.send p e).hasReceiver = m.hasReceiver := by
  cases h : m.isFull with
  | false => rw [send_of_room h]
  | true => rw [send_of_full hm h]

/-- Only dropping the receiver takes it away. -/
theorem hasReceiver_call (hm : m.queued.length ≤ m.capacity) {c : Call} (h : c ≠ .dropReceiver) :
    (m.call c).1.hasReceiver = m.hasReceiver := by
  cases c with
  | send p e => exact hasReceiver_send hm p e
  | onMatch p e => exact hasReceiver_send hm p e
  | onMessage p e => exact hasReceiver_send hm p e
  | clone p => rfl
  | receive =>
    rw [call]
    cases hr : m.hasReceiver with
    | false => rw [receive_of_dropped hr, hr]
    | true => rw [receive_of_live hr]; exact hr
  | drain =>
    rw [call]
    cases hr : m.hasReceiver with
    | false => rw [drain_of_dropped hr, hr]
    | true => rw [drain_of_live hr]; exact hr
  | dropReceiver => exact absurd rfl h

theorem hasReceiver_after (hm : m.queued.length ≤ m.capacity) (calls : List Call) :
    (m.after calls).hasReceiver = true ↔ m.hasReceiver = true ∧ .dropReceiver ∉ calls := by
  induction calls generalizing m with
  | nil => simp [after]
  | cons c cs ih =>
    rw [after, ih (Settles.call hm c).bounded, List.mem_cons, not_or]
    by_cases hc : c = .dropReceiver
    · subst hc
      simp [call, dropReceiver]
    · rw [hasReceiver_call hm hc]
      exact and_congr_right fun _ => (and_iff_right (Ne.symm hc)).symm

/-- An event is evicted in a send that finds the queue full. -/
theorem exists_of_evicted {calls : List Call} {j p : Nat}
    (h : (m.fates calls)[j]? = some (.evicted p)) :
    ∃ before c later, calls = before ++ c :: later ∧ (∃ e, c.sent? = some (p, e)) ∧
      (m.after before).isFull = true ∧ (m.fates before).length = j := by
  induction calls generalizing m j with
  | nil => cases h
  | cons c cs ih =>
    rw [fates] at h
    by_cases hj : j < (m.fatesOf c).length
    · rw [List.getElem?_append_left hj] at h
      have hmem := List.mem_of_getElem? h
      unfold fatesOf at hmem hj
      cases hs : c.sent? with
      | none => simp [hs] at hmem
      | some s =>
        obtain ⟨q, e⟩ := s
        cases hfull : m.isFull with
        | false => simp [hs, hfull] at hmem
        | true =>
          simp only [hs, hfull, if_true, List.mem_singleton, Fate.evicted.injEq,
            List.length_singleton] at hmem hj
          subst hmem
          exact ⟨[], c, cs, rfl, ⟨e, hs⟩, hfull, by rw [fates, List.length_nil]; omega⟩
    · rw [List.getElem?_append_right (by omega)] at h
      obtain ⟨before, d, later, rfl, hd, hfull, hlen⟩ := ih h
      refine ⟨c :: before, d, later, rfl, hd, hfull, ?_⟩
      rw [fates, List.length_append, hlen]
      omega

/-- Whatever is done with a mailbox, of all events sent so far the newest are queued, no more than the
mailbox has room for, and of the others each was received, in order, or evicted by a send that found the
queue full. Until it is dropped the receiver is given the oldest event that waits, or all of them oldest
first, and these are gone then. What a sender has counted is what it was cloned with and its own evictions. A send is
finished at the second try at the latest. -/
theorem events_accounted (capacity : Nat) (calls : List Call) :
    let start := ofCapacity capacity
    let m := start.after calls
    let left := start.fates calls
    (left.length ≤ (sent calls).length ∧ m.queued = (sent calls).drop left.length ∧
      m.queued.length ≤ max capacity 1) ∧
    (start.given calls = received (sent calls) left ∧ (start.given calls).Sublist (sent calls)) ∧
    (.dropReceiver ∉ calls →
      m.receive = ({ m with queued := m.queued.tail }, m.queued.head?) ∧
      m.drain = ({ m with queued := [] }, some m.queued)) ∧
    (.dropReceiver ∈ calls → m.receive = (m, none) ∧ m.drain = (m, none)) ∧
    (∀ (j p : Nat), left[j]? = some (.evicted p) →
      ∃ before c later, calls = before ++ c :: later ∧ (∃ e, c.sent? = some (p, e)) ∧
        j < (sent before).length ∧ (start.after before).queued.length = max capacity 1 ∧
        (start.after before).queued.head? = (sent calls)[j]?) ∧
    m.dropped[0]? = some (left.count (.evicted 0)) ∧
    (∀ (before later : List Call) (p : Nat), calls = before ++ .clone p :: later →
      ∀ v, (start.after before).dropped[p]? = some v →
        let cloned := (start.after before).dropped.length
        m.dropped[cloned]? =
          some (v + (((start.after before).clone p).fates later).count (.evicted cloned))) ∧
    ∀ (p : Nat) (event : String),
      Tries p event m (if m.queued.length = max capacity 1 then 2 else 1) (m.send p event) := by
  intro start m left
  have hstart : start.queued.length ≤ start.capacity := Nat.zero_le _
  have hsettles : ∀ cs, Settles start (sent cs) (start.fates cs) (start.after cs) (start.given cs) :=
    fun cs => Settles.after hstart cs
  have hroom : ∀ cs, (start.after cs).queued.length ≤ max capacity 1 := by
    intro cs
    have h := (hsettles cs).bounded
    rwa [(hsettles cs).capacity] at h
  have hfull : ∀ cs, (start.after cs).isFull = true ↔ (start.after cs).queued.length = max capacity 1 := by
    intro cs
    rw [isFull, (hsettles cs).capacity, decide_eq_true_iff]
    exact ⟨fun h => Nat.le_antisymm (hroom cs) h, fun h => h.ge⟩
  obtain ⟨hcapacity, hbounded, hleave, hqueued, hgiven, hcounts⟩ := hsettles calls
  have hlive : m.hasReceiver = true ↔ .dropReceiver ∉ calls :=
    (hasReceiver_after hstart calls).trans (and_iff_right rfl)
  refine ⟨⟨hleave, hqueued, hroom calls⟩, ⟨hgiven, ?_⟩, ?_, ?_, ?_, ?_, ?_, ?_⟩
  · rw [hgiven]
    exact received_sublist _ _
  · intro h
    exact ⟨receive_of_live (hlive.mpr h), drain_of_live (hlive.mpr h)⟩
  · intro h
    have hdropped : m.hasReceiver = false := by
      rw [Bool.eq_false_iff]
      exact fun ht => hlive.mp ht h
    exact ⟨receive_of_dropped hdropped, drain_of_dropped hdropped⟩
  · intro j p hj
    obtain ⟨before, c, later, rfl, hc, hbefore, rfl⟩ := exists_of_evicted hj
    have hlen := (hfull before).mp hbefore
    have hq : (start.after before).queued = (sent before).drop (start.fates before).length :=
      (hsettles before).queued
    have hlt : (start.fates before).length < (sent before).length := by
      rw [hq, List.length_drop] at hlen
      omega
    refine ⟨before, c, later, rfl, hc, hlt, hlen, ?_⟩
    rw [hq, List.head?_drop, sent, sent, List.filterMap_append]
    exact (List.getElem?_append_left hlt).symm
  · simpa using hcounts 0 0 rfl
  · rintro before later p rfl v hv
    have hclone : ((start.after before).clone p).dropped[(start.after before).dropped.length]? = some v := by
      rw [clone, List.getElem?_concat_length, List.getD_eq_getElem?_getD, hv, Option.getD_some]
    have hlater := (Settles.after (m := (start.after before).clone p) (hsettles before).bounded later).counts
    simp only [m, after_append]
    exact hlater _ v hclone
  · intro p event
    have h := tries_send hbounded p event
    rwa [if_congr (hfull calls) rfl rfl] at h

/-- Two senders overfill a mailbox for two events. It is drained before its receiver goes, and overfilled
and drained in vain after that. -/
theorem events_accounted_overfull :
    let before : List Call := [.send 0 "a", .onMatch 0 "b", .onMessage 0 "c"]
    let polled : List Call := [.send 1 "d", .receive, .send 0 "e"]
    let later : List Call :=
      polled ++ [.drain, .send 1 "f", .send 0 "g", .dropReceiver, .send 1 "h", .drain]
    let start := ofCapacity 2
    let live := before ++ .clone 0 :: polled
    let calls := before ++ .clone 0 :: later
    start.fates calls = [.evicted 0, .evicted 1, .received, .received, .received, .evicted 1] ∧
      (start.after calls).queued = ["g", "h"] ∧ start.given calls = ["c", "d", "e"] ∧
      (start.after live).receive = ({ start.after live with queued := ["e"] }, some "d") ∧
      (start.after live).drain = ({ start.after live with queued := [] }, some ["d", "e"]) ∧
      (start.after calls).drain = (start.after calls, none) ∧
      (start.after calls).dropped[0]? = some 1 ∧ (start.after calls).dropped[1]? = some 3 ∧
      ∃ cs d ds, calls = cs ++ d :: ds ∧ (∃ e, d.sent? = some (1, e)) ∧
        (start.after cs).queued.head? = some "f" := by
  intro before polled later start live calls
  have hleft : start.fates calls =
      [.evicted 0, .evicted 1, .received, .received, .received, .evicted 1] := by decide +kernel
  have hbefore : (start.after before).dropped = [1] := by decide +kernel
  have hlater : ((start.after before).clone 0).fates later =
      [.evicted 1, .received, .received, .received, .evicted 1] := by decide +kernel
  have hlive : (start.after live).queued = ["d", "e"] := by decide +kernel
  obtain ⟨⟨-, hqueued, -⟩, ⟨hgiven, -⟩, -, hgone, hevicted, hfirst, hclones, -⟩ :=
    events_accounted 2 calls
  obtain ⟨-, -, htaken, -⟩ := events_accounted 2 live
  obtain ⟨hreceive, hdrain⟩ := htaken (by simp [live, before, polled])
  change (start.after live).receive = _ at hreceive
  change (start.after live).drain = _ at hdrain
  rw [hlive] at hreceive hdrain
  have hclone := hclones before later 0 rfl 1 (by rw [hbefore]; rfl)
  change (start.after calls).dropped[(start.after before).dropped.length]? =
    some (1 + (((start.after before).clone 0).fates later).count (.evicted _)) at hclone
  obtain ⟨cs, d, ds, hcs, hd, -, -, hhead⟩ := hevicted 5 1 (by rw [hleft]; rfl)
  rw [hleft] at hqueued hgiven hfirst
  rw [hlater, hbefore] at hclone
  exact ⟨hleft, hqueued, hgiven, hreceive, hdrain, (hgone (by simp [calls, later])).2, hfirst, hclone,
    cs, d, ds, hcs, hd, hhead⟩

end ToneWatch.Mailbox
