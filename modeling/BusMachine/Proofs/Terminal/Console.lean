import BusMachine.Proofs.Standard.Architecture
import BusMachine.Terminal

/-!
The console under every interleaving of typing, reads and writes. What was typed is what was read
plus what still waits, and what was written is what the finished lines and the pending one hold: no
character is lost, doubled or moved, in either direction.
-/

namespace BusMachine

inductive ConsoleEvent where
  | typing (text : String)
  | reading
  | writing (word : Word)
deriving DecidableEq, Repr

namespace ConsoleEvent

def codes (wordSize : Nat) : ConsoleEvent → List Word
  | typing text => text.toList.map (Word.ofChar wordSize)
  | reading | writing _ => []

def chars : ConsoleEvent → List Char
  | writing word => [word.toChar]
  | typing _ | reading => []

end ConsoleEvent

structure Reading where
  word : Word
  waiting : Bool
deriving DecidableEq, Repr

/-- The words of the reads for which a character was waiting. -/
def receivedWords (readings : List Reading) : List Word :=
  (readings.filter Reading.waiting).map Reading.word

def serveEvents {σ : Type} (handle : σ → ConsoleEvent → List Reading × σ) (s : σ) :
    List ConsoleEvent → List Reading × σ
  | [] => ([], s)
  | event :: rest =>
    let (now, s) := handle s event
    let (later, s) := serveEvents handle s rest
    (now ++ later, s)

theorem serveEvents_related {σ τ : Type} {handle : σ → ConsoleEvent → List Reading × σ}
    {handle' : τ → ConsoleEvent → List Reading × τ} {R : σ → τ → Prop}
    (step : ∀ s t event, R s t →
      (handle s event).1 = (handle' t event).1 ∧ R (handle s event).2 (handle' t event).2)
    (events : List ConsoleEvent) {s : σ} {t : τ} (h : R s t) :
    (serveEvents handle s events).1 = (serveEvents handle' t events).1 ∧
      R (serveEvents handle s events).2 (serveEvents handle' t events).2 := by
  induction events generalizing s t with
  | nil => exact ⟨rfl, h⟩
  | cons event rest ih =>
    obtain ⟨now, next⟩ := step s t event h
    obtain ⟨later, last⟩ := ih next
    refine ⟨?_, last⟩
    simp only [serveEvents]
    rw [now, later]

@[simp] theorem receivedWords_append (before after : List Reading) :
    receivedWords (before ++ after) = receivedWords before ++ receivedWords after := by
  simp [receivedWords]

namespace ConsoleDevice

def handle (wordSize : Nat) (d : ConsoleDevice) : ConsoleEvent → List Reading × ConsoleDevice
  | .typing text => ([], d.enqueue (text.toList.map (Word.ofChar wordSize)))
  | .reading => ([⟨d.read.1, !d.input.isEmpty⟩], d.read.2)
  | .writing word => ([], d.write word)

/-- All output as one text, in which every finished line ends with a line feed. -/
def output (d : ConsoleDevice) : List Char :=
  d.lines.toList.flatMap (fun line => line.toList ++ ['\n']) ++ d.pending.toList

/-- No line feed is in a finished line or in the pending one. -/
structure Cut (d : ConsoleDevice) : Prop where
  lines : ∀ line ∈ d.lines, '\n' ∉ line.toList
  pending : '\n' ∉ d.pending.toList

theorem output_write (d : ConsoleDevice) (word : Word) :
    (d.write word).output = d.output ++ [word.toChar] := by
  unfold write output
  dsimp only
  split
  · rename_i feed
    simp [feed]
  · simp

theorem Cut.write {d : ConsoleDevice} (h : d.Cut) (word : Word) : (d.write word).Cut := by
  unfold ConsoleDevice.write
  dsimp only
  split
  · refine ⟨fun line hline => ?_, by simp⟩
    obtain hline | rfl := Array.mem_push.mp hline
    · exact h.lines line hline
    · exact h.pending
  · rename_i other
    refine ⟨h.lines, ?_⟩
    simpa [eq_comm] using And.intro h.pending other

variable (wordSize : Nat) (d : ConsoleDevice) (event : ConsoleEvent)

theorem received_handle : receivedWords (d.handle wordSize event).1 ++
    (d.handle wordSize event).2.input = d.input ++ event.codes wordSize := by
  cases event with
  | typing text => rfl
  | writing word =>
    unfold handle write
    dsimp only
    split <;> simp [receivedWords, ConsoleEvent.codes]
  | reading =>
    unfold handle read
    cases hinput : d.input <;> simp [receivedWords, ConsoleEvent.codes, hinput]

theorem idle_handle : ∀ r ∈ (d.handle wordSize event).1, r.waiting = false → r.word = 0 := by
  cases event with
  | typing text | writing word => simp [handle]
  | reading =>
    unfold handle read
    cases d.input <;> simp

theorem output_handle : (d.handle wordSize event).2.output = d.output ++ event.chars := by
  cases event with
  | typing text => simp [handle, enqueue, output, ConsoleEvent.chars]
  | writing word => exact d.output_write word
  | reading =>
    unfold handle read
    cases d.input <;> simp [output, ConsoleEvent.chars]

variable {d}

theorem Cut.handle (h : d.Cut) : (d.handle wordSize event).2.Cut := by
  cases event with
  | typing text => exact ⟨h.lines, h.pending⟩
  | writing word => exact h.write word
  | reading =>
    unfold ConsoleDevice.handle ConsoleDevice.read
    cases d.input <;> exact ⟨h.lines, h.pending⟩

/-- What a console has done between two states. -/
structure Conserves (wordSize : Nat) (events : List ConsoleEvent) (before : ConsoleDevice)
    (readings : List Reading) (after : ConsoleDevice) : Prop where
  received : receivedWords readings ++ after.input =
    before.input ++ events.flatMap (ConsoleEvent.codes wordSize)
  idle : ∀ r ∈ readings, r.waiting = false → r.word = 0
  output : after.output = before.output ++ events.flatMap ConsoleEvent.chars

variable (d)

theorem conserves_serveEvents (events : List ConsoleEvent) :
    Conserves wordSize events d (serveEvents (handle wordSize) d events).1
      (serveEvents (handle wordSize) d events).2 := by
  induction events generalizing d with
  | nil => exact ⟨by simp [serveEvents, receivedWords], by simp [serveEvents],
      by simp [serveEvents]⟩
  | cons event rest ih =>
    have later := ih (d.handle wordSize event).2
    refine ⟨?_, fun r hr => ?_, ?_⟩
    · calc receivedWords (serveEvents (handle wordSize) d (event :: rest)).1 ++
            (serveEvents (handle wordSize) d (event :: rest)).2.input
        _ = receivedWords (d.handle wordSize event).1 ++
            (receivedWords (serveEvents (handle wordSize) (d.handle wordSize event).2 rest).1 ++
              (serveEvents (handle wordSize) (d.handle wordSize event).2 rest).2.input) := by
          simp [serveEvents]
        _ = receivedWords (d.handle wordSize event).1 ++ (d.handle wordSize event).2.input ++
            rest.flatMap (ConsoleEvent.codes wordSize) := by
          rw [later.received, List.append_assoc]
        _ = d.input ++ (event :: rest).flatMap (ConsoleEvent.codes wordSize) := by
          rw [received_handle, List.flatMap_cons, List.append_assoc]
    · obtain hr | hr := List.mem_append.mp hr
      · exact d.idle_handle wordSize event r hr
      · exact later.idle r hr
    · rw [List.flatMap_cons, ← List.append_assoc, ← output_handle wordSize]
      exact later.output

variable {d}

theorem Cut.serveEvents (h : d.Cut) (events : List ConsoleEvent) :
    (serveEvents (ConsoleDevice.handle wordSize) d events).2.Cut := by
  induction events generalizing d with
  | nil => exact h
  | cons event rest ih => exact ih (h.handle wordSize event)

end ConsoleDevice

namespace Terminal

variable {arch : Architecture}

def Holds (t : Terminal arch) (d : ConsoleDevice) : Prop :=
  t.machine.datapath.ports.get? consolePort = some d

theorem Holds.console_eq {t : Terminal arch} {d : ConsoleDevice} (h : t.Holds d) :
    t.console = d := by
  unfold Terminal.console
  rw [h]
  rfl

def handle (t : Terminal arch) : ConsoleEvent → List Reading × Terminal arch
  | .typing text => ([], t.typeText text)
  | .reading =>
    let (word, ports) := t.machine.datapath.ports.read consolePort
    ([⟨word, !t.console.input.isEmpty⟩], { t with machine.datapath.ports := ports })
  | .writing word =>
    ([], { t with machine.datapath.ports := t.machine.datapath.ports.write consolePort word })

theorem Holds.handle {t : Terminal arch} {d : ConsoleDevice} (h : t.Holds d)
    (event : ConsoleEvent) : (t.handle event).1 = (d.handle arch.wordSize event).1 ∧
      (t.handle event).2.Holds (d.handle arch.wordSize event).2 := by
  have console := h.console_eq
  unfold Holds at h
  cases event with
  | typing text =>
    refine ⟨rfl, ?_⟩
    simp [Terminal.handle, Holds, typeText, SparseTable.modify, h, SparseTable.get?_insert,
      ConsoleDevice.handle]
  | writing word =>
    refine ⟨rfl, ?_⟩
    simp [Terminal.handle, Holds, Ports.write, SparseTable.modify, h, SparseTable.get?_insert,
      ConsoleDevice.handle, Device.write]
  | reading =>
    simp [Terminal.handle, Holds, Ports.read, h, SparseTable.get?_insert, ConsoleDevice.handle,
      Device.read, console]

/-- The console loses, doubles and moves nothing. Whatever is typed, read and written in whatever
order, on a console that was new: the words that were read while characters were waiting and the
words that still wait are the codes of the typed characters in order, and all other reads returned
0; the finished lines, each with a line feed behind it, and the pending one are the written
characters in order, and no finished line has a line feed in it. -/
theorem console_conserves {t : Terminal arch} (fresh : t.Holds {}) (events : List ConsoleEvent) :
    let readings := (serveEvents handle t events).1
    let after := (serveEvents handle t events).2
    receivedWords readings ++ after.console.input =
      events.flatMap (ConsoleEvent.codes arch.wordSize) ∧
    (∀ r ∈ readings, r.waiting = false → r.word = 0) ∧
    after.console.lines.toList.flatMap (fun line => line.toList ++ ['\n']) ++
      after.console.pending.toList = events.flatMap ConsoleEvent.chars ∧
    ∀ line ∈ after.console.lines, '\n' ∉ line.toList := by
  obtain ⟨readings, holds⟩ :=
    serveEvents_related (R := Holds) (fun _ _ event h => h.handle event) events fresh
  have conserves := ConsoleDevice.conserves_serveEvents arch.wordSize {} events
  have start : ConsoleDevice.Cut {} := ⟨by simp, by simp⟩
  dsimp only
  rw [holds.console_eq, readings]
  exact ⟨conserves.received, conserves.idle, conserves.output,
    (start.serveEvents arch.wordSize events).lines⟩

def sampleEvents : List ConsoleEvent :=
  [.reading, .typing "ab", .reading, .writing 104, .typing "c", .writing 0xD800, .reading,
    .writing 10, .reading, .reading, .writing 105, .typing "d"]

theorem console_conserves_sample :
    let t := new Standard.defaultArchitecture
    let readings := (serveEvents handle t sampleEvents).1
    let after := (serveEvents handle t sampleEvents).2
    t.Holds {} ∧ receivedWords readings ++ after.console.input = [97, 98, 99, 100] ∧
    after.console.lines.toList.flatMap (fun line => line.toList ++ ['\n']) ++
      after.console.pending.toList = ['h', '\uFFFD', '\n', 'i'] := by
  have fresh : (new Standard.defaultArchitecture).Holds {} := rfl
  obtain ⟨received, -, output, -⟩ := console_conserves fresh sampleEvents
  exact ⟨fresh, received, output⟩

end Terminal

end BusMachine
