import Mathlib
import ToneWatch.Proofs.Morse.Text

namespace ToneWatch.Morse

/-- A run of marks, as long as it can be, with what stands before and after it. -/
structure IsRun (s before : List Symbol) (run : List Mark) (after : List Symbol) : Prop where
  split : s = before ++ (run.map .mark ++ after)
  nonempty : run ≠ []
  begins : ∀ g ∈ before.getLast?, g.isMark = false
  ends : ∀ g ∈ after.head?, g.isMark = false

/-- Symbols with an end of the transmission at their end and nowhere else, in which every run of marks
is a code, one letter gap or some word gaps separate a run from the next one, and letter gaps stand
nowhere else. -/
structure Canonical (s : List Symbol) : Prop where
  ending : ∃ body, s = body ++ [.endOfTransmission] ∧ .endOfTransmission ∉ body
  codes : ∀ before run after, IsRun s before run after → ∃ row ∈ Code.table, row.2 = run
  gaps : ∀ before m gap n after, s = before ++ .mark m :: (gap ++ .mark n :: after) → gap ≠ [] →
    (∀ g ∈ gap, g.isMark = false) → gap = [.letterGap] ∨ ∀ g ∈ gap, g = .wordGap
  between : ∀ before after, s = before ++ .letterGap :: after →
    (∃ g ∈ before, g.isMark = true) ∧ ∃ g ∈ after, g.isMark = true

/-- The same by what may follow: a letter gap is followed by a letter and does not begin a message. -/
inductive Spelled : List Symbol → Prop
  | ended : Spelled [.endOfTransmission]
  | space {s : List Symbol} (h : Spelled s) : Spelled (.wordGap :: s)
  | letter {row : Char × List Mark} {s : List Symbol} (hrow : row ∈ Code.table)
      (hs : ∀ g ∈ s.head?, g.isMark = false) (h : Spelled s) : Spelled (row.2.map .mark ++ s)
  | letters {row : Char × List Mark} {s : List Symbol} (hrow : row ∈ Code.table)
      (hs : ∃ g ∈ s.head?, g.isMark = true) (h : Spelled s) :
      Spelled (row.2.map .mark ++ .letterGap :: s)

/-- Whether every letter gap stands right between two marks. -/
def Flanked (s : List Symbol) : Prop :=
  ∀ before after, s = before ++ .letterGap :: after →
    (∃ g ∈ before.getLast?, g.isMark = true) ∧ ∃ g ∈ after.head?, g.isMark = true

theorem exists_first_mark {s : List Symbol} (h : ∃ g ∈ s, g.isMark = true) :
    ∃ gap m after, s = gap ++ .mark m :: after ∧ ∀ g ∈ gap, g.isMark = false := by
  obtain ⟨g, hg⟩ := Option.isSome_iff_exists.mp (List.find?_isSome.mpr h)
  obtain ⟨hm, gap, after, hs, hgap⟩ := List.find?_eq_some_iff_append.mp hg
  cases g with
  | mark m => exact ⟨gap, m, after, hs, by simpa using hgap⟩
  | _ => cases hm

theorem exists_last_mark {s : List Symbol} (h : ∃ g ∈ s, g.isMark = true) :
    ∃ before m gap, s = before ++ .mark m :: gap ∧ ∀ g ∈ gap, g.isMark = false := by
  obtain ⟨gap, m, after, hs, hgap⟩ := exists_first_mark (s := s.reverse) (by simpa using h)
  refine ⟨after.reverse, m, gap.reverse, ?_, by simpa using hgap⟩
  rw [List.reverse_eq_iff.mp hs]
  simp

theorem Canonical.flanked {s : List Symbol} (h : Canonical s) : Flanked s := by
  intro before after hs
  obtain ⟨hbefore, hafter⟩ := h.between before after hs
  obtain ⟨before, m, gap, rfl, hgap⟩ := exists_last_mark hbefore
  obtain ⟨gap', n, after, rfl, hgap'⟩ := exists_first_mark hafter
  have hbetween := h.gaps before m (gap ++ .letterGap :: gap') n after (by rw [hs]; simp) (by simp)
    (by
      intro g hg
      simp only [List.mem_append, List.mem_cons] at hg
      rcases hg with hg | rfl | hg
      · exact hgap g hg
      · rfl
      · exact hgap' g hg)
  rcases hbetween with hone | hwords
  · obtain ⟨rfl, hg⟩ | ⟨-, hg⟩ := List.append_eq_singleton_iff.mp hone
    · obtain rfl : gap' = [] := by simpa using hg
      exact ⟨⟨.mark m, by simp, rfl⟩, .mark n, by simp, rfl⟩
    · cases hg
  · exact absurd (hwords .letterGap (by simp)) nofun

theorem Flanked.gap_eq {s before after gap : List Symbol} {m n : Mark} (h : Flanked s)
    (hs : s = before ++ .mark m :: (gap ++ .mark n :: after))
    (hgap : ∀ g ∈ gap, g.isMark = false) (hmem : .letterGap ∈ gap) : gap = [.letterGap] := by
  obtain ⟨left, right, rfl⟩ := List.append_of_mem hmem
  obtain ⟨⟨a, ha, hma⟩, b, hb, hmb⟩ := h (before ++ .mark m :: left) (right ++ .mark n :: after)
    (by rw [hs]; simp)
  have hleft : left = [] := by
    cases left using List.reverseRecOn with
    | nil => rfl
    | append_singleton left g =>
      rw [← List.cons_append, ← List.append_assoc, List.getLast?_concat] at ha
      have hg : g = a := Option.some.inj ha
      rw [← hg, hgap g (by simp)] at hma
      cases hma
  have hright : right = [] := by
    cases right with
    | nil => rfl
    | cons g right =>
      have hg : g = b := by simpa using hb
      rw [← hg, hgap g (by simp)] at hmb
      cases hmb
  rw [hleft, hright]
  rfl

theorem Canonical.of_flanked {s : List Symbol}
    (hending : ∃ body, s = body ++ [.endOfTransmission] ∧ .endOfTransmission ∉ body)
    (hcodes : ∀ before run after, IsRun s before run after → ∃ row ∈ Code.table, row.2 = run)
    (h : Flanked s) : Canonical s := by
  refine ⟨hending, hcodes, ?_, ?_⟩
  · intro before m gap n after hs _ hgap
    by_cases hmem : .letterGap ∈ gap
    · exact .inl (h.gap_eq hs hgap hmem)
    · refine .inr fun g hg => ?_
      have hend : .endOfTransmission ∉ gap := by
        obtain ⟨body, hbody, hnot⟩ := hending
        have hlast : (before ++ .mark m :: (gap ++ .mark n :: after)).dropLast = body := by
          rw [← hs, hbody, List.dropLast_concat]
        intro hg
        apply hnot
        rw [← hlast, List.dropLast_append_of_ne_nil (by simp),
          List.dropLast_cons_of_ne_nil (by simp), List.dropLast_append_of_ne_nil (by simp)]
        simp [hg]
      cases g with
      | mark m => cases hgap _ hg
      | letterGap => exact absurd hg hmem
      | wordGap => rfl
      | endOfTransmission => exact absurd hg hend
  · intro before after hs
    obtain ⟨⟨a, ha, hma⟩, b, hb, hmb⟩ := h before after hs
    exact ⟨⟨a, List.mem_of_mem_getLast? ha, hma⟩, b, List.mem_of_mem_head? hb, hmb⟩

/-- A list begins with only one run that cannot be longer. -/
theorem run_unique {run run' : List Mark} {t t' : List Symbol}
    (h : run.map .mark ++ t = run'.map .mark ++ t') (ht : ∀ g ∈ t.head?, g.isMark = false)
    (ht' : ∀ g ∈ t'.head?, g.isMark = false) : run = run' := by
  induction run generalizing run' with
  | nil =>
    cases run' with
    | nil => rfl
    | cons m run' =>
      have hm := ht (.mark m) (by rw [← List.nil_append t]; simpa using congrArg List.head? h)
      cases hm
  | cons m run ih =>
    cases run' with
    | nil =>
      have hm := ht' (.mark m) (by simpa using (congrArg List.head? h).symm)
      cases hm
    | cons m' run' =>
      simp only [List.map_cons, List.cons_append, List.cons.injEq, Symbol.mark.injEq] at h
      rw [h.1, ih h.2]

theorem IsRun.of_cons {a : Symbol} (ha : a.isMark = false) {t before after : List Symbol}
    {run : List Mark} (h : IsRun (a :: t) before run after) :
    ∃ before', IsRun t before' run after := by
  obtain ⟨hs, hne, hbegins, hends⟩ := h
  cases before with
  | nil =>
    obtain ⟨m, run, rfl⟩ := List.exists_cons_of_ne_nil hne
    simp only [List.nil_append, List.map_cons, List.cons_append, List.cons.injEq] at hs
    rw [hs.1] at ha
    cases ha
  | cons b before =>
    refine ⟨before, (List.cons.inj hs).2, hne, ?_, hends⟩
    intro g hg
    exact hbegins g (by rw [List.getLast?_cons, Option.mem_some_iff, hg]; rfl)

theorem IsRun.of_append {run' : List Mark} {t before after : List Symbol} {run : List Mark}
    (ht : ∀ g ∈ t.head?, g.isMark = false) (h : IsRun (run'.map .mark ++ t) before run after) :
    run = run' ∨ ∃ before', IsRun t before' run after := by
  obtain ⟨hs, hne, hbegins, hends⟩ := h
  obtain ⟨c, rfl, hc⟩ | ⟨c, hrun, hrest⟩ := List.append_eq_append_iff.mp hs
  · refine .inr ⟨c, hc, hne, ?_, hends⟩
    intro g hg
    exact hbegins g (by rw [List.getLast?_append, hg]; rfl)
  · obtain ⟨front, back, rfl, rfl, rfl⟩ := List.map_eq_append_iff.mp hrun
    cases front using List.reverseRecOn with
    | nil => exact .inl (run_unique hrest hends ht)
    | append_singleton front m =>
      have hm := hbegins (.mark m) (by simp)
      cases hm

theorem Spelled.ending {s : List Symbol} (h : Spelled s) :
    ∃ body, s = body ++ [.endOfTransmission] ∧ .endOfTransmission ∉ body := by
  induction h with
  | ended => exact ⟨[], rfl, by simp⟩
  | space _ ih =>
    obtain ⟨body, rfl, hbody⟩ := ih
    exact ⟨.wordGap :: body, rfl, by simpa using hbody⟩
  | @letter row _ _ _ _ ih =>
    obtain ⟨body, rfl, hbody⟩ := ih
    exact ⟨row.2.map .mark ++ body, by simp, by simpa using hbody⟩
  | @letters row _ _ _ _ ih =>
    obtain ⟨body, rfl, hbody⟩ := ih
    exact ⟨row.2.map .mark ++ .letterGap :: body, by simp, by simpa using hbody⟩

theorem Spelled.codes {s : List Symbol} (h : Spelled s) (before : List Symbol) (run : List Mark)
    (after : List Symbol) (hrun : IsRun s before run after) : ∃ row ∈ Code.table, row.2 = run := by
  induction h generalizing before with
  | ended =>
    obtain ⟨before, hrun⟩ := hrun.of_cons rfl
    obtain ⟨m, run, rfl⟩ := List.exists_cons_of_ne_nil hrun.nonempty
    have hsplit := hrun.split
    simp at hsplit
  | space _ ih =>
    obtain ⟨before, hrun⟩ := hrun.of_cons rfl
    exact ih before hrun
  | @letter row _ hrow hs _ ih =>
    obtain rfl | ⟨before, hrun⟩ := hrun.of_append hs
    · exact ⟨row, hrow, rfl⟩
    · exact ih before hrun
  | @letters row _ hrow _ _ ih =>
    obtain rfl | ⟨before, hrun⟩ := hrun.of_append (by simp [Symbol.isMark])
    · exact ⟨row, hrow, rfl⟩
    · obtain ⟨before, hrun⟩ := hrun.of_cons rfl
      exact ih before hrun

theorem Flanked.cons {s : List Symbol} (h : Flanked s) {a : Symbol} (ha : a ≠ .letterGap) :
    Flanked (a :: s) := by
  intro before after hs
  cases before with
  | nil => exact absurd (List.cons.inj hs).1 ha
  | cons b before =>
    obtain ⟨⟨g, hg, hm⟩, hafter⟩ := h before after (List.cons.inj hs).2
    refine ⟨⟨g, ?_, hm⟩, hafter⟩
    rw [List.getLast?_cons, hg]
    rfl

theorem Flanked.append {s : List Symbol} (h : Flanked s) (run : List Mark) :
    Flanked (run.map .mark ++ s) := by
  induction run with
  | nil => exact h
  | cons m run ih => exact ih.cons nofun

theorem Flanked.letters {s : List Symbol} (h : Flanked s) (hs : ∃ g ∈ s.head?, g.isMark = true)
    (m : Mark) : Flanked (.mark m :: .letterGap :: s) := by
  intro before after hsplit
  match before with
  | [] => cases hsplit
  | [b] =>
    simp only [List.cons_append, List.nil_append, List.cons.injEq, true_and] at hsplit
    obtain ⟨rfl, rfl⟩ := hsplit
    exact ⟨⟨.mark m, rfl, rfl⟩, hs⟩
  | b :: c :: before =>
    simp only [List.cons_append, List.cons.injEq] at hsplit
    obtain ⟨⟨g, hg, hm⟩, hafter⟩ := h before after hsplit.2.2
    refine ⟨⟨g, ?_, hm⟩, hafter⟩
    rw [List.getLast?_cons, List.getLast?_cons, hg]
    rfl

theorem Spelled.flanked {s : List Symbol} (h : Spelled s) : Flanked s := by
  induction h with
  | ended =>
    intro before after hs
    obtain ⟨-, h⟩ | ⟨-, h⟩ := List.append_eq_singleton_iff.mp hs.symm <;> cases h
  | space _ ih => exact ih.cons nofun
  | @letter row _ _ _ _ ih => exact ih.append row.2
  | @letters row s hrow hs _ ih =>
    obtain ⟨run, m, hrun⟩ := (List.eq_nil_or_concat row.2).resolve_left
      (Code.marks_ne_nil_of_mem row hrow)
    have happ := (ih.letters hs m).append run
    rw [hrun]
    simpa using happ

theorem Spelled.canonical {s : List Symbol} (h : Spelled s) : Canonical s :=
  .of_flanked h.ending h.codes h.flanked

theorem exists_run (s : List Symbol) :
    ∃ (run : List Mark) (t : List Symbol),
      s = run.map .mark ++ t ∧ ∀ g ∈ t.head?, g.isMark = false := by
  induction s with
  | nil => exact ⟨[], [], rfl, by simp⟩
  | cons a s ih =>
    cases ha : a.isMark with
    | true =>
      cases a with
      | mark m =>
        obtain ⟨run, t, rfl, ht⟩ := ih
        exact ⟨m :: run, t, rfl, ht⟩
      | _ => cases ha
    | false => exact ⟨[], a :: s, rfl, by simpa using ha⟩

theorem Canonical.end_iff {before t : List Symbol} {a : Symbol} (h : Canonical (before ++ a :: t)) :
    a = .endOfTransmission ↔ t = [] := by
  obtain ⟨body, hs, hbody⟩ := h.ending
  cases t using List.reverseRecOn with
  | nil =>
    obtain ⟨-, ha⟩ := List.append_inj' hs rfl
    simpa using ha
  | append_singleton t b =>
    rw [← List.cons_append, ← List.append_assoc] at hs
    obtain ⟨rfl, -⟩ := List.append_inj' hs rfl
    have hne : a ≠ .endOfTransmission := by
      rintro rfl
      exact hbody (by simp)
    simp [hne]

theorem Canonical.drop {before t : List Symbol} {a : Symbol} (h : Canonical (before ++ a :: t))
    (ha : a.isMark = false) (hne : t ≠ []) (ht : t.head? ≠ some .letterGap) : Canonical t := by
  have hf := h.flanked
  refine .of_flanked ?_ ?_ ?_
  · obtain ⟨body, hs, hbody⟩ := h.ending
    obtain ⟨t', b, rfl⟩ := (List.eq_nil_or_concat t).resolve_left hne
    rw [List.concat_eq_append, ← List.cons_append, ← List.append_assoc] at hs
    obtain ⟨rfl, hb⟩ := List.append_inj' hs rfl
    refine ⟨t', by rw [List.concat_eq_append, hb], ?_⟩
    intro hmem
    exact hbody (by simp [hmem])
  · intro front run after hrun
    refine h.codes (before ++ a :: front) run after ⟨?_, hrun.nonempty, ?_, hrun.ends⟩
    · rw [hrun.split]
      simp
    · intro g hg
      rw [List.getLast?_append, List.getLast?_cons, Option.some_or, Option.mem_some_iff] at hg
      cases hfront : front.getLast? with
      | none =>
        rw [hfront] at hg
        rw [← hg]
        exact ha
      | some b =>
        rw [hfront] at hg
        exact hrun.begins g (by rw [hfront, ← hg]; rfl)
  · intro front after hs
    obtain ⟨⟨g, hg, hm⟩, hafter⟩ := hf (before ++ a :: front) after (by rw [hs]; simp)
    refine ⟨?_, hafter⟩
    cases front with
    | nil => exact absurd (by rw [hs]; rfl) ht
    | cons b front =>
      rw [List.getLast?_append, List.getLast?_cons_cons, List.getLast?_cons, Option.some_or] at hg
      exact ⟨g, by rw [List.getLast?_cons]; exact hg, hm⟩

theorem Spelled.append {run : List Mark} {t : List Symbol} (ht : ∀ g ∈ t.head?, g.isMark = false)
    (h : Spelled t) (hcode : run ≠ [] → ∃ row ∈ Code.table, row.2 = run) :
    Spelled (run.map .mark ++ t) := by
  by_cases hrun : run = []
  · rw [hrun]
    exact h
  · obtain ⟨row, hrow, rfl⟩ := hcode hrun
    exact .letter hrow ht h

theorem Canonical.spelled {s : List Symbol} (h : Canonical s) : Spelled s := by
  induction hn : s.length using Nat.strong_induction_on generalizing s with
  | _ n ih =>
  obtain ⟨run, t, rfl, ht⟩ := exists_run s
  have hcode : run ≠ [] → ∃ row ∈ Code.table, row.2 = run := fun hrun =>
    h.codes [] run t ⟨rfl, hrun, by simp, ht⟩
  cases t with
  | nil =>
    obtain ⟨body, hs, -⟩ := h.ending
    have hmem : .endOfTransmission ∈ run.map Symbol.mark := by
      rw [← List.append_nil (run.map _), hs]
      simp
    simp at hmem
  | cons a t =>
    cases a with
    | mark m => cases ht (.mark m) rfl
    | endOfTransmission =>
      rw [h.end_iff.mp rfl]
      exact Spelled.ended.append (by simp [Symbol.isMark]) hcode
    | wordGap =>
      have hne : t ≠ [] := by
        intro hnil
        cases h.end_iff.mpr hnil
      have hhead : t.head? ≠ some .letterGap := by
        intro hhead
        obtain ⟨t, rfl⟩ := List.head?_eq_some_iff.mp hhead
        obtain ⟨⟨g, hg, hm⟩, -⟩ := h.flanked (run.map .mark ++ [.wordGap]) t (by simp)
        rw [List.getLast?_concat, Option.mem_some_iff] at hg
        rw [← hg] at hm
        cases hm
      have hrest := ih t.length (by simp [← hn]; omega) (h.drop rfl hne hhead) rfl
      exact (Spelled.space hrest).append (by simp [Symbol.isMark]) hcode
    | letterGap =>
      obtain ⟨⟨g, hg, -⟩, g', hg', hm'⟩ := h.flanked (run.map .mark) t rfl
      have hrun : run ≠ [] := by
        rintro rfl
        cases hg
      have hne : t ≠ [] := by
        rintro rfl
        cases hg'
      have hhead : t.head? ≠ some .letterGap := by
        intro hhead
        rw [Option.mem_def.mp hg', Option.some.injEq] at hhead
        rw [hhead] at hm'
        cases hm'
      have hrest := ih t.length (by simp [← hn]; omega) (h.drop rfl hne hhead) rfl
      obtain ⟨row, hrow, rfl⟩ := hcode hrun
      exact .letters hrow ⟨g', hg', hm'⟩ hrest

/-- The characters of the table are sent and read as they stand there. -/
theorem Code.row_of_mem : ∀ row ∈ table,
    row.1 ≠ ' ' ∧ marks row.1 = row.2 ∧ fold row.1 = row.1 := by decide +kernel

theorem encodeChars_space (cs : List Char) :
    encodeChars (' ' :: cs) = .wordGap :: encodeChars cs := by
  generalize hx : ' ' :: cs = xs
  fun_cases encodeChars xs with
  | case1 => cases hx
  | case2 rest => rw [(List.cons.inj hx).2]
  | case3 c hc => exact absurd (List.cons.inj hx).1.symm hc
  | case4 c rest hc => exact absurd (List.cons.inj hx).1.symm hc
  | case5 c d rest hc => exact absurd (List.cons.inj hx).1.symm hc

/-- A letter gap follows a letter exactly if another letter does. -/
theorem encodeChars_letter {c : Char} (hc : c ≠ ' ') (cs : List Char) :
    encodeChars (c :: cs) = letter c ++
      if ∃ d ∈ cs.head?, d ≠ ' ' then .letterGap :: encodeChars cs else encodeChars cs := by
  generalize hx : c :: cs = xs
  fun_cases encodeChars xs with
  | case1 => cases hx
  | case2 rest => exact absurd (List.cons.inj hx).1 hc
  | case3 c =>
    obtain ⟨rfl, rfl⟩ := List.cons.inj hx
    rw [if_neg (by simp)]
    rfl
  | case4 c rest =>
    obtain ⟨rfl, rfl⟩ := List.cons.inj hx
    rw [if_neg (by simp), encodeChars_space]
  | case5 c d rest _ hd =>
    obtain ⟨rfl, rfl⟩ := List.cons.inj hx
    rw [if_pos ⟨d, rfl, hd⟩]

theorem isMark_head_encodeChars (cs : List Char) :
    (∃ g ∈ (encodeChars cs).head?, g.isMark = true) ↔ ∃ d ∈ cs.head?, d ≠ ' ' := by
  cases cs with
  | nil =>
    have hnil : encodeChars [] = [.endOfTransmission] := rfl
    rw [hnil]
    simp [Symbol.isMark]
  | cons c cs =>
    by_cases hc : c = ' '
    · rw [hc, encodeChars_space]
      simp [Symbol.isMark]
    · obtain ⟨m, ms, hm⟩ := List.exists_cons_of_ne_nil (Code.marks_spec c).1
      rw [encodeChars_letter hc, letter, hm]
      simp [Symbol.isMark, hc]

theorem spelled_encodeChars (cs : List Char) : Spelled (encodeChars cs) := by
  induction cs with
  | nil => exact .ended
  | cons c cs ih =>
    by_cases hc : c = ' '
    · rw [hc, encodeChars_space]
      exact .space ih
    · obtain ⟨row, hrow, -, hm⟩ := Code.marks_ofTable c
      rw [encodeChars_letter hc, letter, hm]
      split
      · next hd => exact .letters hrow ((isMark_head_encodeChars cs).mpr hd) ih
      · next hd =>
        refine .letter hrow ?_ ih
        intro g hg
        by_contra hmark
        exact hd ((isMark_head_encodeChars cs).mp ⟨g, hg, eq_true_of_ne_false hmark⟩)

theorem decodeAfter_gap (run : List Mark) {s : List Symbol} (hs : ∀ g ∈ s.head?, g.isMark = false) :
    decodeAfter run s = flush run ++ decodeAfter [] s := by
  cases s with
  | nil => simp [decodeAfter, flush]
  | cons g s =>
    cases g with
    | mark m => cases hs (.mark m) rfl
    | _ => simp [decodeAfter, flush]

theorem decodeAfter_row {row : Char × List Mark} (hrow : row ∈ Code.table) {s : List Symbol}
    (hs : ∀ g ∈ s.head?, g.isMark = false) :
    decodeAfter [] (row.2.map .mark ++ s) = row.1 :: decodeAfter [] s := by
  obtain ⟨-, hm, hf⟩ := Code.row_of_mem row hrow
  rw [decodeAfter_marks, List.nil_append, decodeAfter_gap _ hs, ← hm, flush_marks, hf]
  rfl

theorem Spelled.encodeChars_decodeAfter {s : List Symbol} (h : Spelled s) :
    encodeChars (decodeAfter [] s) = s := by
  induction h with
  | ended => rfl
  | @space s _ ih =>
    have hread : decodeAfter [] (.wordGap :: s) = ' ' :: decodeAfter [] s := rfl
    rw [hread, encodeChars_space, ih]
  | @letter row s hrow hs _ ih =>
    obtain ⟨hc, hm, -⟩ := Code.row_of_mem row hrow
    have hgap : ¬ ∃ d ∈ (decodeAfter [] s).head?, d ≠ ' ' := by
      rw [← isMark_head_encodeChars, ih]
      rintro ⟨g, hg, hmark⟩
      rw [hs g hg] at hmark
      cases hmark
    rw [decodeAfter_row hrow hs, encodeChars_letter hc, if_neg hgap, ih, Morse.letter, hm]
  | @letters row s hrow hs _ ih =>
    obtain ⟨hc, hm, -⟩ := Code.row_of_mem row hrow
    have hread : decodeAfter [] (.letterGap :: s) = decodeAfter [] s := rfl
    have hgap : ∃ d ∈ (decodeAfter [] s).head?, d ≠ ' ' := by
      rw [← isMark_head_encodeChars, ih]
      exact hs
    rw [decodeAfter_row hrow (by simp [Symbol.isMark]), hread, encodeChars_letter hc, if_pos hgap,
      ih, Morse.letter, hm]

/-- Texts are sent as canonical symbols, and canonical symbols, and no others, are sent again as they
were after they have been read. -/
theorem canonical_iff_encode_decode :
    (∀ text, Canonical (encode text)) ∧ ∀ s, Canonical s ↔ encode (decode s) = s := by
  have hencode : ∀ text, Canonical (encode text) := fun text =>
    (spelled_encodeChars text.toList).canonical
  refine ⟨hencode, fun s => ⟨?_, ?_⟩⟩
  · intro h
    rw [encode, decode, String.toList_ofList, h.spelled.encodeChars_decodeAfter]
  · intro h
    rw [← h]
    exact hencode _

/-- Word gaps may stand first, last and several in a row. -/
example : encode (decode (Symbol.parse ";.- -...;;.-...;#")) = Symbol.parse ";.- -...;;.-...;#" := by
  decide +kernel

end ToneWatch.Morse
