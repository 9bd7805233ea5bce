import Landing.Event.Bus
import Landing.Program
import Landing.Store.Backend

/-!
# A service with observers

A service runs programs against a backend and passes what they signal to four
observers: a recorder and a bus for events, a log, and the counters.
-/

namespace Landing

/-- A backend with the observers of its submissions. -/
structure Service where
  backend : Backend
  /-- The events published since the recorder was last emptied, oldest first. -/
  recorded : List Event
  bus : Bus
  /-- The log lines since the log was last taken, oldest first. -/
  log : List LogRecord
  metrics : Metrics

namespace Service

/-- A service that has not done anything yet. -/
def start (w : World) (busCapacity : Nat) : Service where
  backend := .calm w
  recorded := []
  bus := .ofCapacity busCapacity
  log := []
  metrics := .zero

/-- The world of a service. -/
def world (s : Service) : World := s.backend.world

/-- Replace the world of a service. -/
def withWorld (s : Service) (w : World) : Service :=
  { s with backend := { s.backend with world := w } }

/-- Pass an event to the recorder and the bus. -/
def deliver (s : Service) (e : Event) : Service :=
  { s with recorded := s.recorded ++ [e], bus := s.bus.publish e }

/-- Take note of a signal. -/
def note (s : Service) (g : Signal) : Service :=
  let s := match g.event? with
    | some e => s.deliver e
    | none => s
  { s with log := s.log ++ [g.logRecord], metrics := s.metrics.record g }

/-- Answer a store call. -/
def answer (s : Service) (c : StoreCall) : Except StoreError c.Reply × Service :=
  let (r, backend) := s.backend.answer c
  (r, { s with backend })

/-- Programs run against a service. -/
def host : Program.Host Service := ⟨answer, note⟩

/-- Run a program; no result means that its budget was used up. -/
def run (s : Service) (p : Program α) : Option α × Service := p.run host s

end Service

end Landing
