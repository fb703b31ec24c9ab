import Mathlib
import ToneWatch.Json.Printer
import ToneWatch.Json.Reader
import ToneWatch.Proofs.Json.Quoted
import ToneWatch.Proofs.Numeric.Digits

namespace ToneWatch.Json

/-- A value that has a text: its numbers are plain, and its strings and keys are strings of characters. -/
inductive Written : Json → Prop
  | null : Written .null
  | bool (b : Bool) : Written (.bool b)
  | number {n : Numeral} (h : n.Plain) : Written (.number n)
  | string (s : String) : Written (.string (some s))
  | array {items : List Json} (h : ∀ v ∈ items, Written v) : Written (.array items)
  | object {members : List (Literal × Json)} (hk : ∀ m ∈ members, ∃ k, m.1 = some k)
      (h : ∀ m ∈ members, Written m.2) : Written (.object members)

/-- Reading goes on over a text. -/
def readOn (r : Reading) (s : List Char) : Option Reading :=
  (tokens? s).bind fun ts => ts.foldlM Reading.step r

/-- Whether a text does not go on with a word. -/
def Parted (s : List Char) : Prop := ∀ c ∈ s.head?, isWordChar c = false

theorem readOn_blank {c : Char} (hc : isBlank c = true) (r : Reading) (s : List Char) :
    readOn r (c :: s) = readOn r s := by
  rw [readOn, tokens?, if_pos hc, readOn]

theorem readOn_token {c : Char} {s after : List Char} {t : Token} {r r' : Reading}
    (hc : isBlank c = false) (ht : token? c s = some (t, after)) (hr : r.step t = some r') :
    readOn r (c :: s) = readOn r' after := by
  rw [readOn, tokens?, if_neg (by simp [hc]), readOn]
  split
  · next h => simp [ht] at h
  · next t' after' h =>
    obtain ⟨rfl, rfl⟩ : t = t' ∧ after = after' := by simpa [ht] using h
    cases tokens? after with
    | none => rfl
    | some ts => simp [hr]

theorem readOn_newline (depth : Nat) (r : Reading) (s : List Char) :
    readOn r (newline depth ++ s) = readOn r s := by
  have hspaces (k : Nat) : readOn r (List.replicate k ' ' ++ s) = readOn r s := by
    induction k with
    | zero => rfl
    | succ k ih => rw [List.replicate_succ, List.cons_append, readOn_blank rfl, ih]
  rw [newline, List.cons_append, readOn_blank rfl, hspaces]

theorem readOn_punctuation {c : Char} {t : Token} {r r' : Reading} (ht : punctuation? c = some t)
    (hc : isBlank c = false) (hr : r.step t = some r') (s : List Char) :
    readOn r (c :: s) = readOn r' s := by
  refine readOn_token hc ?_ hr
  rw [token?, ht]

theorem readOn_string {str : String} {r r' : Reading} (hr : r.step (.string (some str)) = some r')
    (s : List Char) : readOn r (Quoted.render str ++ s) = readOn r' s := by
  rw [Quoted.render, List.cons_append, List.cons_append, List.append_assoc]
  refine readOn_token rfl ?_ hr
  have hp : punctuation? '"' = none := rfl
  rw [token?, hp, if_pos rfl, List.cons_append, List.nil_append, Quoted.literal?_render]
  rfl

theorem isWordChar_apart {c : Char} (h : isWordChar c = true) :
    isBlank c = false ∧ punctuation? c = none ∧ c ≠ '"' := by
  refine ⟨?_, ?_, ?_⟩
  · by_contra hb
    simp only [isBlank, Bool.not_eq_false, Bool.or_eq_true, decide_eq_true_eq] at hb
    rcases hb with ((rfl | rfl) | rfl) | rfl <;> exact absurd h (by decide)
  · by_contra hp
    unfold punctuation? at hp
    split at hp <;> first | exact absurd h (by decide) | exact hp rfl
  · rintro rfl
    exact absurd h (by decide)

theorem readOn_word {w : List Char} {t : Token} {r r' : Reading} {s : List Char} (hne : w ≠ [])
    (hw : ∀ c ∈ w, isWordChar c = true) (ht : word? w = some t) (hs : Parted s)
    (hr : r.step t = some r') : readOn r (w ++ s) = readOn r' s := by
  obtain ⟨c, cs, rfl⟩ := List.exists_cons_of_ne_nil hne
  obtain ⟨hblank, hpunct, hquote⟩ := isWordChar_apart (hw c (by simp))
  refine readOn_token hblank ?_ hr
  have hcs : ∀ c ∈ cs, isWordChar c = true := fun c hc => hw c (List.mem_cons_of_mem _ hc)
  have hstop : s.takeWhile isWordChar = [] ∧ s.dropWhile isWordChar = s := by
    cases s with
    | nil => exact ⟨rfl, rfl⟩
    | cons c s =>
      have hc : ¬ isWordChar c = true := by simp [hs c rfl]
      exact ⟨List.takeWhile_cons_of_neg hc, List.dropWhile_cons_of_neg hc⟩
  rw [token?, hpunct, if_neg hquote, List.append_eq, List.takeWhile_append_of_pos hcs,
    List.dropWhile_append_of_pos hcs, hstop.1, hstop.2, List.append_nil, ht]
  rfl

theorem isWordChar_digits (ds : List Digit) : ∀ c ∈ ds.map Digit.toChar, isWordChar c = true := by
  have hdigit : ∀ d : Digit, isWordChar d.toChar = true := by decide
  intro c hc
  obtain ⟨d, -, rfl⟩ := List.mem_map.mp hc
  exact hdigit d

theorem isWordChar_render (n : Numeral) : ∀ c ∈ n.render, isWordChar c = true := by
  have hsign : isWordChar '-' = true := by decide
  have hpoint : isWordChar '.' = true := by decide
  have he : isWordChar 'e' = true := by decide
  have hplus : isWordChar '+' = true := by decide
  rw [Numeral.render_eq]
  simp only [List.forall_mem_append]
  refine ⟨?_, isWordChar_digits _, ?_, ?_⟩
  · split <;> simp [hsign]
  · rw [Numeral.renderFraction]
    split
    · simp
    · exact List.forall_mem_cons.mpr ⟨hpoint, isWordChar_digits _⟩
  · cases n.exponent with
    | none => simp [Numeral.renderExponent]
    | some e =>
      refine List.forall_mem_cons.mpr ⟨he, List.forall_mem_cons.mpr ⟨?_, isWordChar_digits _⟩⟩
      split
      · exact hsign
      · exact hplus

/-- The text of a numeral is none of the three names. -/
theorem word?_render {n : Numeral} (h : n.Plain) : n.render ≠ [] ∧ word? n.render = some (.number n) := by
  obtain ⟨c, cs, hcs, hc⟩ : ∃ c cs, n.render = c :: cs ∧ c ∉ ['n', 't', 'f'] := by
    obtain ⟨d, ds, hds⟩ := List.exists_cons_of_ne_nil h.whole_ne_nil
    have hd : ∀ d : Digit, d.toChar ∉ ['n', 't', 'f'] := by decide
    rw [Numeral.render_eq, hds]
    split
    · exact ⟨'-', _, rfl, by decide⟩
    · exact ⟨d.toChar, _, rfl, hd d⟩
  have hparse := Numeral.parse?_render h
  rw [hcs] at hparse ⊢
  simp only [List.mem_cons, List.not_mem_nil, or_false, not_or] at hc
  simp [word?, hc, hparse]

/-- Whether what comes next is a value inside some levels, or else the end of an array. -/
def Awaits (r : Reading) (levels : List Level) : Prop :=
  ∀ t, t ≠ .closeArray → r.step t = Reading.start levels t

/-- Whether the text of a value is read as that value wherever one may stand. -/
def Reads (v : Json) : Prop :=
  ∀ depth r levels s, Awaits r levels → Parted s →
    readOn r (prettyChars depth v ++ s) = readOn (.complete v levels) s

theorem awaits_value (levels : List Level) : Awaits (.value levels) levels := fun _ _ => rfl

theorem awaits_firstItem (levels : List Level) : Awaits (.firstItem levels) (.array [] :: levels) := by
  intro t ht
  cases t with
  | closeArray => exact absurd rfl ht
  | _ => rfl

theorem parted_cons {c : Char} (hc : isWordChar c = false) (s : List Char) : Parted (c :: s) := by
  intro d hd
  rwa [← Option.some.inj hd]

theorem parted_newline (depth : Nat) (s : List Char) : Parted (newline depth ++ s) :=
  parted_cons (by decide) _

theorem readOn_item {v : Json} (hv : Reads v) (depth : Nat) {r : Reading} {acc : List Json}
    {levels : List Level} (hr : Awaits r (.array acc :: levels)) {s : List Char} (hs : Parted s) :
    readOn r (newline depth ++ (prettyChars depth v ++ s)) =
      readOn (.afterItem (v :: acc) levels) s := by
  rw [readOn_newline, hv depth r _ s hr hs]
  rfl

/-- Items are read one by one, the latest first, up to the bracket that closes them. -/
theorem readOn_items (depth : Nat) (levels : List Level) {s : List Char} (hs : Parted s) (v : Json)
    (items : List Json) (h : ∀ w ∈ v :: items, Reads w) (r : Reading) (acc : List Json)
    (hr : Awaits r (.array acc :: levels)) :
    readOn r (prettyItems depth (v :: items) ++ s) =
      readOn (.afterItem ((v :: items).reverse ++ acc) levels) s := by
  induction items generalizing v r acc with
  | nil =>
    rw [prettyItems, List.append_assoc]
    exact readOn_item (h v (by simp)) depth hr hs
  | cons w items ih =>
    have hcomma : punctuation? ',' = some .comma := rfl
    have hrest : ∀ x ∈ w :: items, Reads x := fun x hx => h x (List.mem_cons_of_mem _ hx)
    rw [prettyItems, List.append_assoc, List.append_assoc, List.cons_append,
      readOn_item (h v (by simp)) depth hr (parted_cons (by decide) _), readOn_punctuation hcomma rfl rfl,
      ih w hrest _ (v :: acc) (awaits_value _)]
    · simp
    · exact nofun

theorem readOn_member {m : Literal × Json} (hk : ∃ k, m.1 = some k) (hv : Reads m.2) (depth : Nat)
    {r : Reading} {acc : List (Literal × Json)} {levels : List Level}
    (hr : ∀ k, r.step (.string (some k)) = some (.colon acc (some k) levels)) {s : List Char}
    (hs : Parted s) :
    readOn r (newline depth ++ (renderLiteral m.1 ++ (':' :: ' ' :: (prettyChars depth m.2 ++ s)))) =
      readOn (.afterMember (m :: acc) levels) s := by
  obtain ⟨k, v⟩ := m
  obtain ⟨k, rfl⟩ := hk
  have hcolon : punctuation? ':' = some .colon := rfl
  have hspace : isBlank ' ' = true := rfl
  rw [readOn_newline, renderLiteral, readOn_string (hr k), readOn_punctuation hcolon rfl rfl,
    readOn_blank hspace, hv depth _ _ s (awaits_value _) hs]
  rfl

theorem readOn_members (depth : Nat) (levels : List Level) {s : List Char} (hs : Parted s)
    (m : Literal × Json) (members : List (Literal × Json))
    (hk : ∀ n ∈ m :: members, ∃ k, n.1 = some k) (h : ∀ n ∈ m :: members, Reads n.2) (r : Reading)
    (acc : List (Literal × Json))
    (hr : ∀ k, r.step (.string (some k)) = some (.colon acc (some k) levels)) :
    readOn r (prettyMembers depth (m :: members) ++ s) =
      readOn (.afterMember ((m :: members).reverse ++ acc) levels) s := by
  induction members generalizing m r acc with
  | nil =>
    rw [prettyMembers]
    simp only [List.append_assoc, List.cons_append]
    exact readOn_member (hk m (by simp)) (h m (by simp)) depth hr hs
  | cons n members ih =>
    have hcomma : punctuation? ',' = some .comma := rfl
    have hkeys : ∀ x ∈ n :: members, ∃ k, x.1 = some k := fun x hx => hk x (List.mem_cons_of_mem _ hx)
    have hrest : ∀ x ∈ n :: members, Reads x.2 := fun x hx => h x (List.mem_cons_of_mem _ hx)
    rw [prettyMembers]
    simp only [List.append_assoc, List.cons_append]
    rw [readOn_member (hk m (by simp)) (h m (by simp)) depth hr (parted_cons (by decide) _),
      readOn_punctuation hcomma rfl rfl, ih n hkeys hrest _ (m :: acc) fun _ => rfl]
    · simp
    · exact nofun

theorem Written.reads {v : Json} (h : Written v) : Reads v := by
  have hopen : punctuation? '[' = some .openArray := rfl
  have hclose : punctuation? ']' = some .closeArray := rfl
  have hbegin : punctuation? '\x7b' = some .openObject := rfl
  have hend : punctuation? '\x7d' = some .closeObject := rfl
  induction h with
  | null =>
    intro depth r levels s hr hs
    have hword : ∀ c ∈ renderNull, isWordChar c = true := by simp [renderNull, isWordChar]
    exact readOn_word (List.cons_ne_nil _ _) hword rfl hs (hr .null nofun)
  | bool b =>
    intro depth r levels s hr hs
    have hword : ∀ c ∈ renderBool b, isWordChar c = true := by
      cases b <;> simp [renderBool, isWordChar]
    have hread : renderBool b ≠ [] ∧ word? (renderBool b) = some (.bool b) := by
      cases b <;> exact ⟨List.cons_ne_nil _ _, rfl⟩
    exact readOn_word hread.1 hword hread.2 hs (hr _ nofun)
  | number hn =>
    intro depth r levels s hr hs
    obtain ⟨hne, hword⟩ := word?_render hn
    exact readOn_word hne (isWordChar_render _) hword hs (hr _ nofun)
  | string str =>
    intro depth r levels s hr hs
    exact readOn_string (hr _ nofun) s
  | @array items h ih =>
    intro depth r levels s hr hs
    cases items with
    | nil =>
      rw [prettyChars, List.cons_append, List.cons_append, List.nil_append,
        readOn_punctuation hopen rfl (hr _ nofun), readOn_punctuation hclose rfl rfl]
    | cons v items =>
      rw [prettyChars]
      simp only [List.append_assoc, List.cons_append, List.nil_append]
      rw [readOn_punctuation hopen rfl (hr _ nofun),
        readOn_items (depth + 1) levels (parted_newline depth _) v items ih _ [] (awaits_firstItem levels),
        readOn_newline, readOn_punctuation hclose rfl rfl]
      simp
  | @object members hk h ih =>
    intro depth r levels s hr hs
    cases members with
    | nil =>
      rw [prettyChars, List.cons_append, List.cons_append, List.nil_append,
        readOn_punctuation hbegin rfl (hr _ nofun), readOn_punctuation hend rfl rfl]
    | cons m members =>
      rw [prettyChars]
      simp only [List.append_assoc, List.cons_append, List.nil_append]
      rw [readOn_punctuation hbegin rfl (hr _ nofun),
        readOn_members (depth + 1) levels (parted_newline depth _) m members hk ih _ [] fun _ => rfl,
        readOn_newline, readOn_punctuation hend rfl rfl]
      simp

theorem parse?_eq (text : String) : parse? text =
    match readOn (.value []) text.toList with
    | some (.done v) => some v
    | _ => none := by
  rw [parse?, readOn]
  cases tokens? text.toList with
  | none => rfl
  | some ts => rfl

theorem parse?_pretty {v : Json} (h : Written v) : parse? v.pretty = some v := by
  have hread := h.reads 0 (.value []) [] [] (awaits_value []) (by simp [Parted])
  have hdone : readOn (.complete v []) [] = some (.done v) := by
    rw [readOn, tokens?]
    rfl
  rw [List.append_nil, hdone] at hread
  rw [parse?_eq, pretty, String.toList_ofList, hread]

end ToneWatch.Json
