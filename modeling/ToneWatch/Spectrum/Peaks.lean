namespace ToneWatch.Spectrum

/-- What the level of a band is computed with. -/
class Measure (α : Type) where
  ofNat : Nat → α
  root : α → α

instance : Measure Float where
  ofNat := Float.ofNat
  root := Float.sqrt

variable {α : Type}

section Picking

variable [LT α] [LE α] [DecidableLT α] [DecidableLE α]

/-- The first of the loudest admitted bins, the bins being numbered from `index`. -/
def loudestFrom (admits : Nat → α → Bool) (index : Nat) (best : Option (Nat × α)) :
    List α → Option (Nat × α)
  | [] => best
  | m :: rest =>
    let best :=
      if admits index m then
        match best with
        | none => some (index, m)
        | some (i, b) => if b < m then some (index, m) else some (i, b)
      else best
    loudestFrom admits (index + 1) best rest

def loudest? (admits : Nat → α → Bool) (band : List α) : Option Nat :=
  (loudestFrom admits 0 none band).map Prod.fst

/-- Whether a bin is farther than the radius from each of the picked ones. -/
def isClear (radius : Nat) (picked : List Nat) (i : Nat) : Bool :=
  picked.all fun p => radius < (p - i) + (i - p)

/-- Picks up to so many more bins. -/
def pickMore (threshold : α) (radius : Nat) (band : List α) : Nat → List Nat → List Nat
  | 0, picked => picked
  | n + 1, picked =>
    match loudest? (fun i m => !decide (m ≤ threshold) && isClear radius picked i) band with
    | none => picked
    | some i => pickMore threshold radius band n (picked ++ [i])

/-- The bins above the threshold that are picked, loudest first. -/
def pick (threshold : α) (radius : Nat) (band : List α) : List Nat :=
  pickMore threshold radius band 3 []

end Picking

section Level

variable [Add α] [Sub α] [Mul α] [Div α] [Measure α]

def mean (xs : List α) : α :=
  xs.foldl (· + ·) (Measure.ofNat 0) / Measure.ofNat xs.length

def spread (xs : List α) : α :=
  let m := mean xs
  Measure.root (mean (xs.map fun x => (x - m) * (x - m)))

end Level

/-- When a band is loud enough to have peaks, and how far above its mean they lie. -/
structure Levels (α : Type) where
  factor : α
  spread : α
  mean : α

/-- The peaks of a band, loudest first; a quiet or even band has none. -/
def peaks [LT α] [LE α] [DecidableLT α] [DecidableLE α] [Add α] [Sub α] [Mul α] [Div α] [Measure α]
    (levels : Levels α) (radius : Nat) (band : List α) : List Nat :=
  let m := mean band
  let d := spread band
  if m < levels.mean ∨ d < levels.spread then []
  else pick (m + levels.factor * d) radius band

end ToneWatch.Spectrum
