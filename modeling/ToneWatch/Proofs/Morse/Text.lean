import Mathlib
import ToneWatch.Morse.Keying
import ToneWatch.Proofs.Morse.Edges

namespace ToneWatch.Morse

namespace Code

def readable : List Char := table.map Prod.fst

theorem toUpper_readable (c : Char) (h : c.isAlphanum = true) : c.toUpper ∈ readable := by
  have hv : c.toNat < 128 := by
    simp only [Char.isAlphanum, Char.isAlpha, Char.isUpper, Char.isLower, Char.isDigit,
      Bool.or_eq_true, Bool.and_eq_true, decide_eq_true_eq, ge_iff_le, UInt32.le_iff_toNat_le] at h
    simp only [Char.toNat]
    have hZ : 'Z'.val.toNat = 90 := rfl
    have hz : 'z'.val.toNat = 122 := rfl
    have h9 : '9'.val.toNat = 57 := rfl
    omega
  have hall : ∀ n < 128, (Char.ofNat n).isAlphanum = true → (Char.ofNat n).toUpper ∈ readable := by
    decide
  simpa using hall c.toNat hv (by simpa using h)

theorem fold_readable (c : Char) : fold c ∈ readable := by
  unfold fold
  split_ifs with h
  · exact toUpper_readable c h
  · decide

theorem marks?_of_mem : ∀ row ∈ table, marks? row.1 = some row.2 := by decide +kernel

theorem char?_of_mem : ∀ row ∈ table, char? row.2 = some row.1 := by decide +kernel

theorem marks_ne_nil_of_mem : ∀ row ∈ table, row.2 ≠ [] := by decide

theorem marks_ofTable (c : Char) : ∃ row ∈ table, row.1 = fold c ∧ marks c = row.2 := by
  obtain ⟨row, hrow, hc⟩ := List.mem_map.mp (fold_readable c)
  refine ⟨row, hrow, hc, ?_⟩
  rw [marks, ← hc, marks?_of_mem row hrow, Option.getD_some]

/-- Every character has marks, and they are the code of the character that stands for it. -/
theorem marks_spec (c : Char) : marks c ≠ [] ∧ char? (marks c) = some (fold c) := by
  obtain ⟨row, hrow, hc, hm⟩ := marks_ofTable c
  rw [hm, ← hc]
  exact ⟨marks_ne_nil_of_mem row hrow, char?_of_mem row hrow⟩

end Code

/-- The character that is read where `c` was sent. -/
def heardAs (c : Char) : Char := if c = ' ' then ' ' else Code.fold c

theorem flush_marks (c : Char) : flush (Code.marks c) = [Code.fold c] := by
  obtain ⟨hne, hc⟩ := Code.marks_spec c
  obtain ⟨m, ms, hm⟩ := List.exists_cons_of_ne_nil hne
  rw [hm] at hc ⊢
  simp [flush, hc]

theorem decodeAfter_marks (begun marks : List Mark) (rest : List Symbol) :
    decodeAfter begun (marks.map .mark ++ rest) = decodeAfter (begun ++ marks) rest := by
  induction marks generalizing begun with
  | nil => simp
  | cons m marks ih => simp [decodeAfter, ih]

theorem decodeAfter_encodeChars (cs : List Char) :
    decodeAfter [] (encodeChars cs) = cs.map heardAs := by
  fun_induction encodeChars cs with
  | case1 => rfl
  | case2 rest ih => simp [decodeAfter, flush, ih, heardAs]
  | case3 c hc =>
    have hs : c ≠ ' ' := hc
    rw [letter, decodeAfter_marks, List.nil_append, decodeAfter, flush_marks]
    · simp [decodeAfter, flush, heardAs, hs]
    · simp
    · simp
  | case4 c rest hc ih =>
    have hs : c ≠ ' ' := hc
    rw [letter, decodeAfter_marks, List.nil_append, decodeAfter, flush_marks, ih]
    simp [heardAs, hs]
  | case5 c d rest hc hd ih =>
    have hs : c ≠ ' ' := hc
    rw [letter, decodeAfter_marks, List.nil_append, decodeAfter, flush_marks, ih]
    · simp [heardAs, hs]
    · simp
    · simp

/-- What a text is received as. -/
def received (text : String) : String := String.ofList (text.toList.map heardAs)

theorem decode_encode (text : String) : decode (encode text) = received text := by
  rw [decode, encode, decodeAfter_encodeChars]
  rfl

/-- Decoding undoes encoding but for this: a letter or digit of ASCII is read in upper case, and every
other character except a space as the unknown one. Spaces may stand anywhere. -/
theorem toList_decode_encode (text : String) :
    (decode (encode text)).toList = text.toList.map fun c =>
      if c = ' ' then ' ' else if c.isAlphanum then c.toUpper else '&' := by
  rw [decode_encode, received, String.toList_ofList]
  apply List.map_congr_left
  intro c _
  rw [heardAs, Code.fold, Code.unknown]

example : decode (encode "  to be,  or ß") = "  TO BE&  OR &" := by decide +kernel

theorem encodeChars_end (cs : List Char) :
    ∃ body, encodeChars cs = body ++ [.endOfTransmission] ∧ .endOfTransmission ∉ body := by
  have hl : ∀ c, Symbol.endOfTransmission ∉ letter c := by simp [letter]
  fun_induction encodeChars cs with
  | case1 => exact ⟨[], rfl, by simp⟩
  | case2 rest ih =>
    obtain ⟨body, he, hb⟩ := ih
    exact ⟨.wordGap :: body, by rw [he]; rfl, by simpa using hb⟩
  | case3 c hc => exact ⟨letter c, rfl, hl c⟩
  | case4 c rest hc ih =>
    obtain ⟨body, he, hb⟩ := ih
    exact ⟨letter c ++ .wordGap :: body, by rw [he]; simp, by simpa [hl c] using hb⟩
  | case5 c d rest hc hd ih =>
    obtain ⟨body, he, hb⟩ := ih
    exact ⟨letter c ++ .letterGap :: body, by rw [he]; simp, by simpa [hl c] using hb⟩

/-- A mark and the units of silence after it. -/
structure Beat where
  mark : Mark
  rest : Nat

namespace Beat

def symbols (b : Beat) : List Symbol := .mark b.mark :: (spacing? b.rest).toList

def runs (b : Beat) : List Run := [(Symbol.mark b.mark).run, ⟨false, b.rest⟩]

/-- The beats of a letter with a silence after it. -/
def ofMarks (rest : Nat) : List Mark → List Beat
  | [] => []
  | [m] => [⟨m, rest⟩]
  | m :: n :: ms => ⟨m, 1⟩ :: ofMarks rest (n :: ms)

/-- The beats of a text without needless spaces. -/
def ofChars : List Char → List Beat
  | [] => []
  | [c] => ofMarks 10 (Code.marks c)
  | c :: d :: rest =>
    if d = ' ' then ofMarks 7 (Code.marks c) ++ ofChars rest
    else ofMarks 3 (Code.marks c) ++ ofChars (d :: rest)

/-- Whether the last beat, and no other, ends the transmission. -/
def Closed (bs : List Beat) : Prop :=
  ∃ body m, bs = body ++ [⟨m, 10⟩] ∧ ∀ b ∈ body, b.rest = 1 ∨ b.rest = 3 ∨ b.rest = 7

theorem symbols_ofMarks {rest : Nat} {s : Symbol} (hs : spacing? rest = some s) {ms : List Mark}
    (hne : ms ≠ []) : (ofMarks rest ms).flatMap symbols = ms.map .mark ++ [s] := by
  fun_induction ofMarks rest ms with
  | case1 => exact absurd rfl hne
  | case2 m => simp [symbols, hs]
  | case3 m n ms ih =>
    rw [List.flatMap_cons, ih (by simp)]
    rfl

theorem rest_of_mem_ofMarks {rest : Nat} {ms : List Mark} {b : Beat} (h : b ∈ ofMarks rest ms) :
    b.rest = 1 ∨ b.rest = rest := by
  fun_induction ofMarks rest ms with
  | case1 => cases h
  | case2 m =>
    rw [List.mem_singleton.mp h]
    exact Or.inr rfl
  | case3 m n ms ih =>
    rcases List.mem_cons.mp h with rfl | h
    · exact Or.inl rfl
    · exact ih h

theorem Closed.rest_pos {bs : List Beat} (h : Closed bs) : ∀ b ∈ bs, 1 ≤ b.rest := by
  obtain ⟨body, m, rfl, hr⟩ := h
  intro b hb
  rcases List.mem_append.mp hb with hb | hb
  · have := hr b hb
    omega
  · rw [List.mem_singleton.mp hb]
    exact Nat.zero_lt_succ 9

theorem closed_ofMarks {ms : List Mark} (hne : ms ≠ []) : Closed (ofMarks 10 ms) := by
  fun_induction ofMarks 10 ms with
  | case1 => exact absurd rfl hne
  | case2 m => exact ⟨[], m, rfl, by simp⟩
  | case3 m n ms ih =>
    obtain ⟨body, l, hb, hr⟩ := ih (by simp)
    refine ⟨⟨m, 1⟩ :: body, l, by rw [hb]; rfl, ?_⟩
    intro b h
    rcases List.mem_cons.mp h with rfl | h
    · exact Or.inl rfl
    · exact hr b h

theorem Closed.append {cs : List Beat} (h : Closed cs) {rest : Nat} (hr : rest = 3 ∨ rest = 7)
    (ms : List Mark) : Closed (ofMarks rest ms ++ cs) := by
  obtain ⟨body, m, rfl, hb⟩ := h
  refine ⟨ofMarks rest ms ++ body, m, by simp, ?_⟩
  intro b h
  rcases List.mem_append.mp h with h | h
  · have hm := rest_of_mem_ofMarks h
    omega
  · exact hb b h

end Beat

/-- Whether no space stands at an end of a text or after another one. -/
def Spaced (cs : List Char) : Prop :=
  cs ≠ [] ∧ cs.head? ≠ some ' ' ∧ cs.getLast? ≠ some ' ' ∧ ¬ [' ', ' '] <:+: cs

instance (cs : List Char) : Decidable (Spaced cs) :=
  inferInstanceAs (Decidable (_ ∧ _ ∧ _ ∧ _))

theorem Spaced.afterSpace {c : Char} {cs : List Char} (h : Spaced (c :: ' ' :: cs)) : Spaced cs := by
  obtain ⟨-, -, hl, hi⟩ := h
  cases cs with
  | nil => exact absurd rfl hl
  | cons d cs =>
    refine ⟨by simp, ?_, by simpa using hl, ?_⟩
    · intro hd
      have hd : d = ' ' := by simpa using hd
      exact hi ⟨[c], cs, by simp [hd]⟩
    · intro hd
      exact hi (hd.trans ⟨[c, ' '], [], by simp⟩)

theorem Spaced.afterLetter {c d : Char} {cs : List Char} (h : Spaced (c :: d :: cs)) (hd : d ≠ ' ') :
    Spaced (d :: cs) := by
  obtain ⟨-, -, hl, hi⟩ := h
  exact ⟨by simp, by simpa using hd, by simpa using hl, fun hx => hi (hx.trans ⟨[c], [], by simp⟩)⟩

namespace Beat

/-- A text without needless spaces is sent as its beats. -/
theorem ofChars_spec {cs : List Char} (h : Spaced cs) :
    encodeChars cs = (ofChars cs).flatMap symbols ∧ Closed (ofChars cs) := by
  fun_induction encodeChars cs with
  | case1 => exact absurd rfl h.1
  | case2 rest => exact absurd rfl h.2.1
  | case3 c hc =>
    have hm := (Code.marks_spec c).1
    rw [ofChars, symbols_ofMarks (s := .endOfTransmission) rfl hm]
    exact ⟨rfl, closed_ofMarks hm⟩
  | case4 c rest hc ih =>
    obtain ⟨he, hb⟩ := ih h.afterSpace
    have hm := (Code.marks_spec c).1
    rw [ofChars, if_pos rfl, List.flatMap_append, symbols_ofMarks (s := .wordGap) rfl hm, ← he]
    exact ⟨by simp [letter], hb.append (Or.inr rfl) _⟩
  | case5 c d rest hc hd ih =>
    obtain ⟨he, hb⟩ := ih (h.afterLetter hd)
    have hm := (Code.marks_spec c).1
    rw [ofChars, if_neg hd, List.flatMap_append, symbols_ofMarks (s := .letterGap) rfl hm, ← he]
    exact ⟨by simp [letter], hb.append (Or.inl rfl) _⟩

theorem isMark_head_symbols (bs : List Beat) :
    ∀ s ∈ (bs.flatMap symbols).head?, s.isMark = true := by
  cases bs with
  | nil => simp
  | cons b bs => simp [symbols, Symbol.isMark]

theorem runs_symbols_append (b : Beat) (hb : b.rest = 1 ∨ b.rest = 3 ∨ b.rest = 7)
    (c : Beat) (tail : List Symbol) :
    Morse.runs (b.symbols ++ (c.symbols ++ tail)) = b.runs ++ Morse.runs (c.symbols ++ tail) := by
  obtain ⟨m, rest⟩ := b
  rcases hb with rfl | rfl | rfl <;> rfl

theorem runs_symbols {bs : List Beat} (h : Closed bs) :
    Morse.runs (bs.flatMap symbols) = bs.flatMap runs := by
  obtain ⟨body, m, rfl, hb⟩ := h
  induction body with
  | nil => rfl
  | cons b body ih =>
    have hbody := ih fun c hc => hb c (List.mem_cons_of_mem _ hc)
    obtain ⟨c, cs, hc⟩ : ∃ c cs, body ++ [⟨m, 10⟩] = c :: cs := by
      cases body with
      | nil => exact ⟨_, _, rfl⟩
      | cons c body => exact ⟨_, _, rfl⟩
    rw [List.cons_append, List.flatMap_cons, List.flatMap_cons, ← hbody, hc, List.flatMap_cons]
    exact runs_symbols_append b (hb b (by simp)) c _

end Beat

namespace Keying

theorem wrap_of_lt {count : Nat} (h : count < 2 ^ 64) : wrap count = count := Nat.mod_eq_of_lt h

/-- Runs of which the steps can be counted are keyed as long as they are. -/
theorem states_of_lt {k : Keying} {perUnit : Nat} (h : ∀ r ∈ k.toList, r.units * perUnit < 2 ^ 64) :
    k.states perUnit = k.toList.flatMap fun r => List.replicate (r.units * perUnit) r.on :=
  List.flatMap_congr fun r hr => by rw [wrap_of_lt (h r hr)]

theorem push_of_turn (k : Keying) (r : Run) (hu : 0 < r.units)
    (ht : ∀ last ∈ k.latestFirst.head?, last.on ≠ r.on) : k.push r = ⟨r :: k.latestFirst⟩ := by
  rw [push, if_neg (by omega)]
  cases hk : k.latestFirst with
  | nil => rfl
  | cons last earlier =>
    have hl : last.on ≠ r.on := ht last (by simp [hk])
    simp [hl]

theorem toList_append_beats (k : Keying) (hk : ∀ last ∈ k.latestFirst.head?, last.on = false)
    (bs : List Beat) (hb : ∀ b ∈ bs, 0 < b.rest) :
    (k.append (bs.flatMap Beat.runs)).toList = k.toList ++ bs.flatMap Beat.runs := by
  induction bs generalizing k with
  | nil => simp [append]
  | cons b bs ih =>
    have hm : 0 < (Symbol.mark b.mark).run.units ∧ (Symbol.mark b.mark).run.on = true := by
      cases b.mark <;> decide
    have hon : k.push (Symbol.mark b.mark).run =
        ⟨(Symbol.mark b.mark).run :: k.latestFirst⟩ :=
      push_of_turn k _ hm.1 fun last hl => by simp [hk last hl, hm.2]
    have hoff := push_of_turn ⟨(Symbol.mark b.mark).run :: k.latestFirst⟩ ⟨false, b.rest⟩
      (hb b (by simp)) (by simp [hm.2])
    have happ : k.append ((b :: bs).flatMap Beat.runs) =
        append ⟨⟨false, b.rest⟩ :: (Symbol.mark b.mark).run :: k.latestFirst⟩
          (bs.flatMap Beat.runs) := by
      rw [← hoff, ← hon]
      rfl
    rw [happ, ih _ (by simp) fun c hc => hb c (List.mem_cons_of_mem _ hc)]
    simp [toList, Beat.runs]

theorem toList_encodeChars {cs : List Char} (h : Spaced cs) :
    (ofSymbols (encodeChars cs)).toList = (Beat.ofChars cs).flatMap Beat.runs := by
  obtain ⟨he, hc⟩ := Beat.ofChars_spec h
  rw [he, ofSymbols, Beat.runs_symbols hc, ofList, toList_append_beats {} (by simp) _ hc.rest_pos]
  rfl

end Keying

/-- Texts one after another are beats of which the last one ends a transmission. -/
theorem Beat.exists_of_texts (texts : List String) (hx : ∀ x ∈ texts, Spaced x.toList) :
    ∃ bs : List Beat, texts.flatMap encode = bs.flatMap symbols ∧
      (texts.flatMap fun x => (Keying.ofSymbols (encode x)).toList) = bs.flatMap runs ∧
      (∀ b ∈ bs, 1 ≤ b.rest) ∧ ∀ b ∈ bs.getLast?, b.rest = 10 := by
  induction texts with
  | nil => exact ⟨[], rfl, rfl, by simp, by simp⟩
  | cons x texts ih =>
    obtain ⟨bs, hs, hr, hp, hl⟩ := ih fun y hy => hx y (List.mem_cons_of_mem _ hy)
    have hsp := hx x (by simp)
    obtain ⟨he, hc⟩ := ofChars_spec hsp
    refine ⟨ofChars x.toList ++ bs, ?_, ?_, ?_, ?_⟩
    · rw [List.flatMap_cons, List.flatMap_append, hs, ← he]
      rfl
    · rw [List.flatMap_cons, List.flatMap_append, hr, ← Keying.toList_encodeChars hsp]
      rfl
    · intro b hb
      exact (List.mem_append.mp hb).elim (hc.rest_pos b) (hp b)
    · intro b hb
      rw [List.getLast?_append] at hb
      cases hbs : bs.getLast? with
      | some c =>
        rw [hbs] at hb
        exact hl b (by rw [hbs]; exact hb)
      | none =>
        rw [hbs, Option.none_or] at hb
        obtain ⟨body, m, ho, -⟩ := hc
        rw [ho, List.getLast?_concat] at hb
        rw [← Option.mem_some_iff.mp hb]

end ToneWatch.Morse
