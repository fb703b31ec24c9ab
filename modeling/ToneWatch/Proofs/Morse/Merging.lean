import Mathlib
import ToneWatch.Proofs.Morse.Text

namespace ToneWatch.Morse

/-- The tone states of a run, `perUnit` to a time unit. -/
def Run.states (perUnit : Nat) (r : Run) : List Bool :=
  List.replicate (r.units * perUnit) r.on

/-- The tone states of symbols one after another, with a silent unit between two marks that stand side
by side and nowhere else. -/
def statesOfSymbols (perUnit : Nat) (symbols : List Symbol) : List Bool :=
  (symbols.mapIdx fun i s => s.run.states perUnit ++
    if s.isMark && symbols[i + 1]?.any Symbol.isMark then List.replicate perUnit false else []).flatten

/-- Whether no state lasts for more steps than a word can count. -/
def Counted (states : List Bool) : Prop :=
  ∀ (on : Bool) (steps : Nat), List.replicate steps on <:+: states → steps < 2 ^ 64

theorem Counted.of_infix {part states : List Bool} (h : Counted states) (hp : part <:+: states) :
    Counted part :=
  fun on steps hs => h on steps (hs.trans hp)

theorem Counted.left {xs ys : List Bool} (h : Counted (xs ++ ys)) : Counted xs :=
  h.of_infix (List.prefix_append xs ys).isInfix

theorem Counted.right {xs ys : List Bool} (h : Counted (xs ++ ys)) : Counted ys :=
  h.of_infix (List.suffix_append xs ys).isInfix

theorem counted_of_length {states : List Bool} (h : states.length < 2 ^ 64) : Counted states := by
  intro on steps hs
  have hlen := hs.length_le
  rw [List.length_replicate] at hlen
  omega

/-- Runs that are not empty and take turns between tone and silence. -/
structure Alternates (rs : List Run) : Prop where
  units_pos : ∀ r ∈ rs, 0 < r.units
  turns : rs.IsChain fun a b => a.on ≠ b.on

theorem next_not_mark {s : Symbol} {rest : List Symbol}
    (h : ∀ a b more, s = .mark a → rest = .mark b :: more → False) (hs : s.isMark = true) :
    ∀ next ∈ rest.head?, next.isMark = false := by
  cases s with
  | mark a =>
    match rest, h with
    | [], _ => simp
    | .mark b :: more, h => exact absurd rfl (h a b more rfl)
    | .letterGap :: _, _ | .wordGap :: _, _ | .endOfTransmission :: _, _ => simp [Symbol.isMark]
  | _ => cases hs

theorem runs_states (perUnit : Nat) (symbols : List Symbol) :
    (runs symbols).flatMap (Run.states perUnit) = statesOfSymbols perUnit symbols := by
  fun_induction runs symbols with
  | case1 => rfl
  | case2 a b rest ih =>
    rw [List.flatMap_cons, List.flatMap_cons, ih]
    simp [statesOfSymbols, Symbol.isMark, Run.states, markGap, List.append_assoc]
  | case3 s rest hs ih =>
    have hgap : (s.isMark && rest[0]?.any Symbol.isMark) = false := by
      rw [Bool.and_eq_false_imp, ← List.head?_eq_getElem?, Option.any_eq_false]
      exact fun hmark next hnext => by simp [next_not_mark hs hmark next hnext]
    rw [List.flatMap_cons, ih, statesOfSymbols, statesOfSymbols, List.mapIdx_cons, List.flatten_cons,
      List.getElem?_cons_succ, hgap]
    simp

theorem Alternates.nil : Alternates [] := ⟨by simp, List.IsChain.nil⟩

theorem Alternates.tail {r : Run} {rs : List Run} (h : Alternates (r :: rs)) : Alternates rs :=
  ⟨fun s hs => h.units_pos s (List.mem_cons_of_mem _ hs), h.turns.tail⟩

theorem Alternates.cons {r : Run} {rs : List Run} (h : Alternates rs) (hr : 0 < r.units)
    (ht : ∀ s ∈ rs.head?, s.on ≠ r.on) : Alternates (r :: rs) := by
  refine ⟨List.forall_mem_cons.mpr ⟨hr, h.units_pos⟩, ?_⟩
  rw [List.isChain_cons]
  exact ⟨fun s hs => (ht s hs).symm, h.turns⟩

theorem Alternates.reverse {rs : List Run} (h : Alternates rs) : Alternates rs.reverse := by
  refine ⟨fun r hr => h.units_pos r (List.mem_reverse.mp hr), List.isChain_reverse.mpr ?_⟩
  exact h.turns.imp fun _ _ hne => hne.symm

theorem Alternates.head_states {r : Run} {rs : List Run} (h : Alternates (r :: rs)) :
    ∀ b ∈ (rs.flatMap (Run.states 1)).head?, b ≠ r.on := by
  cases rs with
  | nil => simp
  | cons s rs =>
    have hs : 0 < s.units := h.units_pos s (by simp)
    have hne : r.on ≠ s.on := (List.isChain_cons_cons.mp h.turns).1
    obtain ⟨n, hn⟩ := Nat.exists_eq_add_of_lt hs
    intro b hb
    rw [List.flatMap_cons, Run.states, Nat.mul_one, hn, List.replicate_succ, List.cons_append] at hb
    rw [← Option.some.inj hb]
    exact hne.symm

theorem Alternates.units_le {r s : Run} {rs ss : List Run} (hr : Alternates (r :: rs)) (hon : r.on = s.on)
    (h : (r :: rs).flatMap (Run.states 1) = (s :: ss).flatMap (Run.states 1)) : s.units ≤ r.units := by
  by_contra hlt
  obtain ⟨n, hn⟩ : ∃ n, s.units = r.units + (n + 1) := ⟨s.units - r.units - 1, by omega⟩
  rw [List.flatMap_cons, List.flatMap_cons, Run.states, Run.states, Nat.mul_one, Nat.mul_one, hn,
    List.replicate_add, hon, List.append_assoc, List.append_right_inj, List.replicate_succ] at h
  exact hr.head_states s.on (by rw [h]; rfl) hon.symm

theorem Alternates.unique {rs ss : List Run} (hr : Alternates rs) (hs : Alternates ss)
    (h : rs.flatMap (Run.states 1) = ss.flatMap (Run.states 1)) : rs = ss := by
  induction rs generalizing ss with
  | nil =>
    cases ss with
    | nil => rfl
    | cons s ss =>
      have hpos := hs.units_pos s (by simp)
      have hlen := congrArg List.length h
      simp [Run.states] at hlen
      omega
  | cons r rs ih =>
    cases ss with
    | nil =>
      have hpos := hr.units_pos r (by simp)
      have hlen := congrArg List.length h
      simp [Run.states] at hlen
      omega
    | cons s ss =>
      have hon : r.on = s.on := by
        obtain ⟨m, hm⟩ := Nat.exists_eq_add_of_lt (hr.units_pos r (by simp))
        obtain ⟨n, hn⟩ := Nat.exists_eq_add_of_lt (hs.units_pos s (by simp))
        have hhead := congrArg List.head? h
        simpa [Run.states, hm, hn, List.replicate_succ] using hhead
      have hunits : r.units = s.units := le_antisymm (hs.units_le hon.symm h.symm) (hr.units_le hon h)
      obtain rfl : r = s := Run.ext hon hunits
      rw [List.flatMap_cons, List.flatMap_cons, List.append_right_inj] at h
      rw [ih hr.tail hs.tail h]

namespace Keying

variable {perUnit : Nat}

theorem wrap_add_wrap (a b : Nat) : wrap (a + wrap b) = wrap (a + b) := Nat.add_mod_mod a b _

theorem wrap_wrap_add (a b : Nat) : wrap (wrap a + b) = wrap (a + b) := Nat.mod_add_mod a _ b

theorem totalUnits_eq (k : Keying) : k.totalUnits = wrap (k.toList.map Run.units).sum := by
  have hfold : ∀ (rs : List Run) (total : Nat),
      rs.foldl (fun total r => wrap (total + r.units)) (wrap total) =
        wrap (total + (rs.map Run.units).sum) := by
    intro rs
    induction rs with
    | nil => simp
    | cons r rs ih =>
      intro total
      rw [List.foldl_cons, wrap_wrap_add, ih, List.map_cons, List.sum_cons, Nat.add_assoc]
  have h := hfold k.toList 0
  rwa [Nat.zero_add] at h

theorem push_of_empty (k : Keying) {r : Run} (hr : r.units = 0) : k.push r = k := if_pos hr

theorem push_of_joined (on : Bool) (m : Nat) {n : Nat} (hn : 0 < n) (earlier : List Run) :
    push ⟨⟨on, m⟩ :: earlier⟩ ⟨on, n⟩ = ⟨⟨on, wrap (m + n)⟩ :: earlier⟩ := by
  rw [push, if_neg hn.ne']
  exact if_pos rfl

theorem push_cases (k : Keying) (r : Run) :
    r.units = 0 ∧ k.push r = k ∨
      (∃ m earlier, 0 < r.units ∧ k = ⟨⟨r.on, m⟩ :: earlier⟩ ∧
        k.push r = ⟨⟨r.on, wrap (m + r.units)⟩ :: earlier⟩) ∨
      0 < r.units ∧ (∀ last ∈ k.latestFirst.head?, last.on ≠ r.on) ∧ k.push r = ⟨r :: k.latestFirst⟩ := by
  obtain hr | hr := Nat.eq_zero_or_pos r.units
  · exact .inl ⟨hr, push_of_empty k hr⟩
  by_cases hon : ∀ last ∈ k.latestFirst.head?, last.on ≠ r.on
  · exact .inr (.inr ⟨hr, hon, push_of_turn k r hr hon⟩)
  · obtain ⟨_ | ⟨⟨on, m⟩, earlier⟩⟩ := k
    · simp at hon
    · obtain rfl : on = r.on := by simpa using hon
      exact .inr (.inl ⟨m, earlier, hr, rfl, push_of_joined r.on m hr earlier⟩)

/-- The states of the runs of a plan, as long as these really are. -/
def spans (perUnit : Nat) (k : Keying) : List Bool := k.toList.flatMap (Run.states perUnit)

theorem spans_cons (r : Run) (rs : List Run) :
    spans perUnit ⟨r :: rs⟩ = spans perUnit ⟨rs⟩ ++ r.states perUnit := by
  simp [spans, toList]

/-- Steps that can be counted are steps of units that can be counted. -/
theorem wrap_joined (hp : 0 < perUnit) {on : Bool} {m n : Nat} {earlier : List Run}
    (h : Counted (spans perUnit ⟨⟨on, m⟩ :: earlier⟩ ++ Run.states perUnit ⟨on, n⟩)) :
    wrap (m + n) = m + n := by
  rw [spans_cons, List.append_assoc] at h
  have hjoined := h.right on ((m + n) * perUnit) (by
    rw [Nat.add_mul, List.replicate_add]
    exact List.infix_rfl)
  exact wrap_of_lt ((Nat.le_mul_of_pos_right _ hp).trans_lt hjoined)

theorem spans_push {k : Keying} {r : Run} (h : Counted (k.spans perUnit ++ r.states perUnit)) :
    (k.push r).spans perUnit = k.spans perUnit ++ r.states perUnit := by
  obtain ⟨hr, hk⟩ | ⟨m, earlier, -, rfl, hk⟩ | ⟨-, -, hk⟩ := push_cases k r
  · rw [hk, Run.states, hr, Nat.zero_mul, List.replicate_zero, List.append_nil]
  · have hunits : wrap (m + r.units) * perUnit = m * perUnit + r.units * perUnit := by
      obtain rfl | hp := Nat.eq_zero_or_pos perUnit
      · rfl
      · rw [wrap_joined hp h, Nat.add_mul]
    rw [hk, spans_cons, spans_cons, Run.states, hunits, List.replicate_add, List.append_assoc]
    rfl
  · rw [hk, spans_cons]

theorem totalUnits_push (k : Keying) (r : Run) :
    (k.push r).totalUnits = wrap (k.totalUnits + r.units) := by
  obtain ⟨hr, hk⟩ | ⟨m, earlier, -, rfl, hk⟩ | ⟨-, -, hk⟩ := push_cases k r
  · rw [hk, hr, Nat.add_zero, totalUnits_eq]
    exact (Nat.mod_mod _ _).symm
  · rw [hk, totalUnits_eq, totalUnits_eq, wrap_wrap_add]
    simp [toList, ← Nat.add_assoc, wrap_add_wrap]
  · rw [hk, totalUnits_eq, totalUnits_eq, wrap_wrap_add]
    simp [toList]

theorem alternates_push {k : Keying} (h : Alternates k.latestFirst) {r : Run}
    (hc : Counted (k.spans 1 ++ r.states 1)) : Alternates (k.push r).latestFirst := by
  obtain ⟨-, hk⟩ | ⟨m, earlier, hr, rfl, hk⟩ | ⟨hr, hon, hk⟩ := push_cases k r
  · rwa [hk]
  · rw [hk, wrap_joined one_pos hc]
    exact h.tail.cons (Nat.add_pos_right m hr) fun s hs => ((List.isChain_cons.mp h.turns).1 s hs).symm
  · rw [hk]
    exact h.cons hr hon

theorem tones_push_silence (k : Keying) {r : Run} (hr : r.on = true → r.units = 0) :
    (k.push r).toList.filter Run.on = k.toList.filter Run.on := by
  obtain ⟨-, hk⟩ | ⟨m, earlier, hpos, rfl, hk⟩ | ⟨hpos, -, hk⟩ := push_cases k r
  · rw [hk]
  · have hoff : r.on = false := Bool.eq_false_iff.mpr fun hon => hpos.ne' (hr hon)
    rw [hk]
    simp [toList, hoff]
  · have hoff : r.on = false := Bool.eq_false_iff.mpr fun hon => hpos.ne' (hr hon)
    rw [hk]
    simp [toList, hoff]

theorem append_cons (k : Keying) (r : Run) (rs : List Run) : k.append (r :: rs) = (k.push r).append rs :=
  rfl

theorem append_append (k : Keying) (rs ss : List Run) : k.append (rs ++ ss) = (k.append rs).append ss :=
  List.foldl_append

theorem spans_append {k : Keying} {rs : List Run}
    (h : Counted (k.spans perUnit ++ rs.flatMap (Run.states perUnit))) :
    (k.append rs).spans perUnit = k.spans perUnit ++ rs.flatMap (Run.states perUnit) := by
  induction rs generalizing k with
  | nil => simp [append]
  | cons r rs ih =>
    rw [List.flatMap_cons, ← List.append_assoc] at h ⊢
    have hpush := spans_push h.left
    rw [append_cons, ← hpush]
    exact ih (by rwa [hpush])

theorem totalUnits_append (k : Keying) (rs : List Run) :
    (k.append rs).totalUnits = wrap (k.totalUnits + (rs.map Run.units).sum) := by
  induction rs generalizing k with
  | nil =>
    have h := totalUnits_push k ⟨false, 0⟩
    rwa [push_of_empty k rfl] at h
  | cons r rs ih =>
    rw [append_cons, ih, totalUnits_push, wrap_wrap_add, List.map_cons, List.sum_cons, Nat.add_assoc]

theorem alternates_append {k : Keying} (h : Alternates k.latestFirst) {rs : List Run}
    (hc : Counted (k.spans 1 ++ rs.flatMap (Run.states 1))) :
    Alternates (k.append rs).latestFirst := by
  induction rs generalizing k with
  | nil => exact h
  | cons r rs ih =>
    rw [List.flatMap_cons, ← List.append_assoc] at hc
    exact ih (alternates_push h hc.left) (by rwa [spans_push hc.left])

theorem tones_append_silence (k : Keying) {rs : List Run} (hr : ∀ r ∈ rs, r.on = true → r.units = 0) :
    (k.append rs).toList.filter Run.on = k.toList.filter Run.on := by
  induction rs generalizing k with
  | nil => rfl
  | cons r rs ih =>
    rw [append_cons, ih _ fun s hs => hr s (List.mem_cons_of_mem _ hs), tones_push_silence k (hr r (by simp))]

theorem tones_push_tone {k : Keying} {r : Run} (hpos : 0 < r.units) (hon : r.on = true)
    (hk : ∀ last ∈ k.latestFirst.head?, last.on = false) :
    (k.push r).toList.filter Run.on = k.toList.filter Run.on ++ [r] := by
  rw [push_of_turn k r hpos fun last hl => by simp [hk last hl, hon]]
  simp [toList, hon]

theorem head_push {k : Keying} {r : Run} (hpos : 0 < r.units) :
    ∀ last ∈ (k.push r).latestFirst.head?, last.on = r.on := by
  obtain ⟨hr, -⟩ | ⟨m, earlier, -, rfl, hk⟩ | ⟨-, -, hk⟩ := push_cases k r
  · omega
  · simp [hk]
  · simp [hk]

/-- Symbols add one tone for each mark, unless the first of them goes on with a tone. -/
theorem tones_append_runs (k : Keying) (symbols : List Symbol)
    (hk : ∀ last ∈ k.latestFirst.head?, last.on = true → ∀ s ∈ symbols.head?, s.isMark = false) :
    (k.append (runs symbols)).toList.filter Run.on =
      k.toList.filter Run.on ++ (symbols.filter Symbol.isMark).map Symbol.run := by
  have hpush (k : Keying) (a : Mark) (rest : List Symbol)
      (hk : ∀ last ∈ k.latestFirst.head?, last.on = true →
        ∀ s ∈ (Symbol.mark a :: rest).head?, s.isMark = false) :
      (k.push (Symbol.mark a).run).toList.filter Run.on = k.toList.filter Run.on ++ [(Symbol.mark a).run] := by
    have hmark : 0 < (Symbol.mark a).run.units ∧ (Symbol.mark a).run.on = true := by cases a <;> decide
    refine tones_push_tone hmark.1 hmark.2 fun last hl => ?_
    by_contra hon
    exact absurd (hk last hl (by simpa using hon) (.mark a) rfl) (by simp [Symbol.isMark])
  fun_induction runs symbols generalizing k with
  | case1 => simp [append]
  | case2 a b rest ih =>
    have hlast := head_push (k := k.push (Symbol.mark a).run) (r := markGap) (by decide)
    rw [append_cons, append_cons, ih _ fun last hl hon => by simp [hlast last hl, markGap] at hon,
      tones_push_silence _ (by decide), hpush k a _ hk, List.append_assoc]
    rfl
  | case3 s rest hs ih =>
    rw [append_cons]
    cases s with
    | mark a =>
      rw [ih _ fun _ _ _ => next_not_mark hs rfl, hpush k a _ hk, List.append_assoc]
      rfl
    | letterGap | wordGap | endOfTransmission =>
      rw [ih _ fun last hl hon => by simp [head_push (by decide) last hl, Symbol.run] at hon,
        tones_push_silence k (by decide)]
      rfl

theorem spans_ofList {rs : List Run} (h : Counted (rs.flatMap (Run.states perUnit))) :
    (ofList rs).spans perUnit = rs.flatMap (Run.states perUnit) := spans_append (k := {}) h

theorem alternates_ofList {rs : List Run} (h : Counted (rs.flatMap (Run.states 1))) :
    Alternates (ofList rs).toList := (alternates_append (k := {}) .nil h).reverse

theorem states_eq_spans {k : Keying} (h : Counted (k.spans perUnit)) :
    k.states perUnit = k.spans perUnit := by
  refine states_of_lt fun r hr => h r.on _ ?_
  obtain ⟨earlier, later, hk⟩ := List.append_of_mem hr
  rw [spans, hk, List.flatMap_append, List.flatMap_cons, ← List.append_assoc]
  exact List.infix_append _ _ _

theorem length_states (rs : List Run) : (rs.flatMap (Run.states 1)).length = (rs.map Run.units).sum := by
  simp [List.length_flatMap, Run.states]

theorem totalUnits_ofList (rs : List Run) : (ofList rs).totalUnits = wrap (rs.map Run.units).sum := by
  rw [ofList, totalUnits_append]
  exact congrArg wrap (Nat.zero_add _)

/-- Runs that were pushed onto one plan have their units on another one, too. -/
theorem totalUnits_append_ofList (k : Keying) (rs : List Run) :
    (k.append (ofList rs).toList).totalUnits = (k.append rs).totalUnits := by
  rw [totalUnits_append, totalUnits_append, ← wrap_add_wrap, ← totalUnits_eq, totalUnits_ofList,
    wrap_add_wrap]

theorem spans_append_ofList {k : Keying} {rs : List Run}
    (h : Counted (k.spans perUnit ++ rs.flatMap (Run.states perUnit))) :
    (k.append (ofList rs).toList).spans perUnit = k.spans perUnit ++ rs.flatMap (Run.states perUnit) := by
  have hrs : (ofList rs).toList.flatMap (Run.states perUnit) = rs.flatMap (Run.states perUnit) :=
    spans_ofList h.right
  rw [spans_append (by rwa [hrs]), hrs]

theorem alternates_append_ofList {k : Keying} (hk : Alternates k.latestFirst) {rs : List Run}
    (h : Counted (k.spans 1 ++ rs.flatMap (Run.states 1))) :
    Alternates (k.append (ofList rs).toList).latestFirst := by
  have hrs : (ofList rs).toList.flatMap (Run.states 1) = rs.flatMap (Run.states 1) := spans_ofList h.right
  exact alternates_append hk (by rwa [hrs])

/-- A plan that is pushed run by run keys what it was made of, between what is pushed before and after. -/
theorem spans_resent {before rs after : List Run}
    (h : Counted ((before ++ rs ++ after).flatMap (Run.states perUnit))) :
    (((ofList before).append (ofList rs).toList).append after).spans perUnit =
      (before ++ rs ++ after).flatMap (Run.states perUnit) := by
  rw [List.flatMap_append, List.flatMap_append] at h ⊢
  have hbefore := spans_ofList h.left.left
  rw [← hbefore] at h ⊢
  rw [spans_append (by rw [spans_append_ofList h.left]; exact h), spans_append_ofList h.left]

theorem alternates_resent {before rs after : List Run}
    (h : Counted ((before ++ rs ++ after).flatMap (Run.states 1))) :
    Alternates (((ofList before).append (ofList rs).toList).append after).toList := by
  rw [List.flatMap_append, List.flatMap_append] at h
  have halternates : Alternates (ofList before).latestFirst :=
    alternates_append (k := {}) .nil h.left.left
  rw [← spans_ofList h.left.left] at h
  refine (alternates_append (alternates_append_ofList halternates h.left) ?_).reverse
  rwa [spans_append_ofList h.left]

/-- The tones of symbols stay as they are in silence that is pushed before and after them. -/
theorem tones_between_silence (symbols : List Symbol) {before after : List Run}
    (hsilent : ∀ r ∈ before ++ after, r.on = true → r.units = 0) :
    (ofList (before ++ runs symbols ++ after)).toList.filter Run.on =
      (symbols.filter Symbol.isMark).map Symbol.run := by
  rw [List.forall_mem_append] at hsilent
  have hbefore : (ofList before).toList.filter Run.on = [] := tones_append_silence {} hsilent.1
  have hlast : ∀ last ∈ (ofList before).latestFirst.head?, last.on = false := by
    intro last hl
    have hmem : last ∈ (ofList before).toList := List.mem_reverse.mpr (List.mem_of_mem_head? hl)
    simpa using List.filter_eq_nil_iff.mp hbefore last hmem
  rw [ofList, append_append, append_append, tones_append_silence _ hsilent.2]
  refine (tones_append_runs (ofList before) _ fun last hl hon => ?_).trans ?_
  · simp [hlast last hl] at hon
  · rw [hbefore, List.nil_append]

/-- Symbols are keyed one by one, with a silent unit between two marks that stand side by side, if no
state lasts for more steps than a word can count; then the runs take turns between tone and silence.
There is one tone for each mark. Pushed onto another plan run by run the symbols key the same behind it,
and so does what is pushed after them; the runs are the only ones that take turns and have these tone
states, and silence around the symbols leaves their tones as they are. -/
theorem states_ofSymbols (symbols : List Symbol) :
    (∀ perUnit, Counted (statesOfSymbols perUnit symbols) →
      (ofSymbols symbols).states perUnit = statesOfSymbols perUnit symbols) ∧
    (Counted (statesOfSymbols 1 symbols) → Alternates (ofSymbols symbols).toList) ∧
    (ofSymbols symbols).toList.filter Run.on = (symbols.filter Symbol.isMark).map Symbol.run ∧
    ∀ before after : List Run,
      let k := ((ofList before).append (ofSymbols symbols).toList).append after
      let meant := fun perUnit => before.flatMap (Run.states perUnit) ++
        statesOfSymbols perUnit symbols ++ after.flatMap (Run.states perUnit)
      (∀ perUnit, Counted (meant perUnit) → k.states perUnit = meant perUnit) ∧
      k.totalUnits = wrap (meant 1).length ∧
      (Counted (meant 1) → Alternates k.toList ∧
        (∀ rs, Alternates rs → rs.flatMap (Run.states 1) = meant 1 → rs = k.toList) ∧
        ((∀ r ∈ before ++ after, r.on = true → r.units = 0) →
          k.toList.filter Run.on = (symbols.filter Symbol.isMark).map Symbol.run)) := by
  refine ⟨fun perUnit h => ?_, fun h => ?_, tones_append_runs {} symbols (by simp), ?_⟩
  · rw [← runs_states] at h ⊢
    have hspans := spans_ofList h
    rw [ofSymbols, states_eq_spans (by rwa [hspans]), hspans]
  · rw [← runs_states] at h
    exact alternates_ofList h
  intro before after k meant
  have hall : ∀ perUnit,
      meant perUnit = (before ++ runs symbols ++ after).flatMap (Run.states perUnit) := by
    intro perUnit
    rw [List.flatMap_append, List.flatMap_append, runs_states]
  refine ⟨fun perUnit h => ?_, ?_, fun h => ?_⟩
  · rw [hall] at h ⊢
    have hspans : k.spans perUnit = _ := spans_resent h
    rw [states_eq_spans (by rwa [hspans]), hspans]
  · rw [hall, length_states, ← totalUnits_ofList, ofList, append_append, append_append,
      totalUnits_append, totalUnits_append _ after]
    exact congrArg (fun total => wrap (total + _)) (totalUnits_append_ofList (ofList before) _)
  · rw [hall] at h ⊢
    have halternates := alternates_resent h
    have hspans : k.toList.flatMap (Run.states 1) = _ := spans_resent h
    refine ⟨halternates, fun rs hrs hstates => hrs.unique halternates (hstates.trans hspans.symm),
      fun hsilent => ?_⟩
    have hsame : k.toList = (ofList (before ++ runs symbols ++ after)).toList :=
      halternates.unique (alternates_ofList h) (hspans.trans (spans_ofList h).symm)
    rw [hsame, tones_between_silence symbols hsilent]

/-- Between a lead and a tail, of which a run is empty, two gaps that stand side by side become one
silence, and so do the end of the transmission and the tail. -/
theorem states_ofSymbols_led :
    let symbols := [.mark .dot, .mark .dash, .letterGap, .wordGap, .mark .dash, .endOfTransmission]
    let before : List Run := [⟨false, 2⟩]
    let after : List Run := [⟨true, 0⟩, ⟨false, 4⟩]
    let k := ((ofList before).append (ofSymbols symbols).toList).append after
    (ofSymbols symbols).states 2 = statesOfSymbols 2 symbols ∧ Alternates (ofSymbols symbols).toList ∧
      k.states 2 = List.replicate 4 false ++ statesOfSymbols 2 symbols ++ List.replicate 8 false ∧
      k.totalUnits = 34 ∧
      k.toList = [⟨false, 2⟩, ⟨true, 1⟩, ⟨false, 1⟩, ⟨true, 3⟩, ⟨false, 10⟩, ⟨true, 3⟩, ⟨false, 14⟩] ∧
      (∀ r ∈ before ++ after, r.on = true → r.units = 0) ∧
      k.toList.filter Run.on = [⟨true, 1⟩, ⟨true, 3⟩, ⟨true, 3⟩] := by
  intro symbols before after k
  obtain ⟨hstates, halternates, -, hpushed⟩ := states_ofSymbols symbols
  obtain ⟨hkeyed, htotal, hmeant⟩ := hpushed before after
  obtain ⟨-, hunique, htones⟩ := hmeant (counted_of_length (by decide))
  have hsilent : ∀ r ∈ before ++ after, r.on = true → r.units = 0 := by decide
  exact ⟨hstates 2 (counted_of_length (by decide)), halternates (counted_of_length (by decide)),
    hkeyed 2 (counted_of_length (by decide)), htotal, (hunique _ ⟨by decide, by decide⟩ (by decide)).symm,
    hsilent, htones hsilent⟩

/-- Ten units of `2 ^ 63` steps each leave nothing to a word, and a silence that makes them `2 ^ 64` and
nine units leaves nine. -/
theorem states_ofSymbols_wrapped :
    (ofSymbols [.endOfTransmission]).states (2 ^ 63) ≠ statesOfSymbols (2 ^ 63) [.endOfTransmission] ∧
      ((ofSymbols [.endOfTransmission]).push ⟨false, 2 ^ 64 - 1⟩).toList = [⟨false, 9⟩] ∧
      ((ofSymbols [.endOfTransmission]).push ⟨false, 2 ^ 64 - 1⟩).totalUnits ≠
        (ofSymbols [.endOfTransmission]).totalUnits + (2 ^ 64 - 1) := by
  have hrun : (ofSymbols [.endOfTransmission]).toList = [⟨false, 10⟩] := by decide
  have hruns : runs [.endOfTransmission] = [⟨false, 10⟩] := by decide
  have hwrapped : wrap (10 * 2 ^ 63) = 0 := by norm_num only [wrap]
  refine ⟨fun h => ?_, by decide, by decide⟩
  rw [states, hrun, List.flatMap_singleton, hwrapped, ← runs_states, hruns, List.flatMap_singleton] at h
  have hlen := congrArg List.length h
  rw [List.length_replicate, Run.states, List.length_replicate] at hlen
  norm_num only at hlen

end Keying

end ToneWatch.Morse
