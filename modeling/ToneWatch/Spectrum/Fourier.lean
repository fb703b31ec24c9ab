namespace ToneWatch.Spectrum

structure Complex where
  re : Float
  im : Float

namespace Complex

def add (a b : Complex) : Complex := ⟨a.re + b.re, a.im + b.im⟩

def sub (a b : Complex) : Complex := ⟨a.re - b.re, a.im - b.im⟩

def mul (a b : Complex) : Complex := ⟨a.re * b.re - a.im * b.im, a.re * b.im + a.im * b.re⟩

def norm (a : Complex) : Float := Float.sqrt (a.re * a.re + a.im * a.im)

/-- The number of norm one with the given angle in radians. -/
def ofAngle (angle : Float) : Complex := ⟨Float.cos angle, Float.sin angle⟩

end Complex

def pi : Float := 3.141592653589793

def evenOdd {α : Type} (xs : List α) : List α × List α :=
  xs.foldr (fun a halves => (a :: halves.2, halves.1)) ([], [])

/-- The transform of two to the power of `depth` values. -/
def transform : Nat → List Complex → List Complex
  | 0, xs => xs
  | depth + 1, xs =>
    let (even, odd) := evenOdd xs
    let low := transform depth even
    let high := transform depth odd
    let step := -2.0 * pi / (1 <<< (depth + 1) : Nat).toFloat
    let turned := high.mapIdx fun i z => z.mul (.ofAngle (step * i.toFloat))
    List.zipWith .add low turned ++ List.zipWith .sub low turned

/-- The factor that fades a sample of a frame of `size` toward the ends. -/
def hannFactor (size index : Nat) : Float :=
  0.5 * (1.0 - Float.cos (2.0 * pi * index.toFloat / (size - 1).toFloat))

/-- The magnitudes of the bins from one to half the frame size, in units of the samples. -/
def magnitudes (hann : Bool) (values : List Int) : List Float :=
  let size := values.length
  let faded := values.mapIdx fun i v =>
    Complex.mk (if hann then Float.ofInt v * hannFactor size i else Float.ofInt v) 0.0
  let bins := transform size.log2 faded
  ((bins.drop 1).take (size / 2)).map fun z => z.norm * (2.0 / size.toFloat)

end ToneWatch.Spectrum
