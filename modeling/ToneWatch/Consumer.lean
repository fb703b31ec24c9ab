import ToneWatch.Frame

namespace ToneWatch

/-- A consumer of frames with state `σ` and events `ε`. -/
class Consumer (σ : Type) (ε : outParam Type) where
  isAnalysing : σ → Bool
  /-- Takes frames, oldest first, and gives the events they cause in order. -/
  consume : σ → List Frame → σ × List ε

/-- Feeds items one after another and collects what some of them give. -/
def feed {σ α ε : Type} (step : σ → α → σ × Option ε) (s : σ) : List α → σ × List ε
  | [] => (s, [])
  | a :: rest =>
    let (s, e) := step s a
    let (s, es) := feed step s rest
    (s, e.toList ++ es)

end ToneWatch
