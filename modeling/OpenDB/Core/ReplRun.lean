import OpenDB.Core.DeleteExactness
import OpenDB.Frontend.ReplSource

/-!
# The engine loop over a line-based source

`EngineLoop::run` ends when its source has no command. The source has none at the end of its input, on
`EXIT`, and on every line that it cannot read, so the first such line ends the run and the lines behind
it are lost. A run goes on to `EXIT` exactly when every line that has another one to be read behind it
is a command (`continues_iff`).
-/

set_option autoImplicit false

namespace OpenDB

open OpenDB.Library ReplSource

/-! ## The loop -/

namespace EngineLoop

/-- `EngineLoop::run` over a `ReplSource`: the answers of the commands, and the lines that are not read.
What the loop does with a command is left open. -/
def runSource {m : Type → Type} [Monad m] (dispatch : Command → m Response) :
    List Bytes → m (List Response × List Bytes)
  | [] => return ([], [])
  | line :: rest =>
    match nextCommand (line :: rest) with
    -- a line that is no command ends the run, like EXIT
    | (none, unread) => return ([], unread)
    | (some cmd, _) => do
      let answer ← dispatch cmd
      let (answers, unread) ← runSource dispatch rest
      return (answer :: answers, unread)

/-- The loop with the engine's own `dispatch`. -/
def runRepl [StandardLibrary] (lines : List Bytes) : Exec (List Response × List Bytes) :=
  runSource dispatch lines

variable {m : Type → Type} [Monad m] {dispatch : Command → m Response}

theorem runSource_none {line : Bytes} {rest : List Bytes} (h : lineCommand line = none) :
    runSource dispatch (line :: rest) = return ([], rest) := by
  rw [runSource, nextCommand, h]

theorem runSource_some {line : Bytes} {rest : List Bytes} {cmd : Command}
    (h : lineCommand line = some cmd) :
    runSource dispatch (line :: rest) = do
      let answer ← dispatch cmd
      let (answers, unread) ← runSource dispatch rest
      return (answer :: answers, unread) := by
  rw [runSource, nextCommand, h]

end EngineLoop

/-! ## The lines up to the exit -/

namespace ReplSource

/-- The lines up to the first `EXIT`, which is among them; all lines when there is none. -/
def untilExit : List Bytes → List Bytes
  | [] => []
  | line :: rest => if isExit line then [line] else line :: untilExit rest

def behindExit : List Bytes → List Bytes
  | [] => []
  | line :: rest => if isExit line then rest else behindExit rest

theorem untilExit_eq_nil {lines : List Bytes} : untilExit lines = [] ↔ lines = [] := by
  cases lines with
  | nil => exact Iff.rfl
  | cons line rest =>
    rw [untilExit]
    split_ifs <;> simp

theorem length_behindExit_lt {lines : List Bytes} (h : lines ≠ []) :
    (behindExit lines).length < lines.length := by
  induction lines with
  | nil => exact absurd rfl h
  | cons line rest ih =>
    rw [behindExit]
    split_ifs
    · simp
    · cases rest with
      | nil => simp [behindExit]
      | cons next rest =>
        have hrest := ih (List.cons_ne_nil _ _)
        rw [List.length_cons (a := line)]
        omega

/-- All lines up to the exit are read, and those of them that are commands are dispatched once each and
in order, whatever a dispatch does. -/
def Continues (lines : List Bytes) : Prop :=
  ∀ (m : Type → Type) [Monad m] [LawfulMonad m] (dispatch : Command → m Response),
    EngineLoop.runSource dispatch lines = do
      let answers ← ((untilExit lines).filterMap lineCommand).mapM dispatch
      return (answers, behindExit lines)

/-- Every line that has another one to be read behind it is a command. -/
def Uninterrupted (lines : List Bytes) : Prop :=
  ∀ line ∈ (untilExit lines).dropLast, (lineCommand line).isSome

theorem uninterrupted_cons {line : Bytes} {rest : List Bytes} (h : isExit line = false) :
    Uninterrupted (line :: rest) ↔
      (rest ≠ [] → (lineCommand line).isSome) ∧ Uninterrupted rest := by
  have huntil : untilExit (line :: rest) = line :: untilExit rest := by
    rw [untilExit, h]
    rfl
  rw [Uninterrupted, Uninterrupted, huntil]
  cases hrest : untilExit rest with
  | nil =>
    rw [untilExit_eq_nil] at hrest
    simp [hrest]
  | cons next more =>
    have hne : rest ≠ [] := fun hnil => by
      rw [hnil] at hrest
      cases hrest
    rw [List.dropLast_cons_cons, List.forall_mem_cons]
    simp [hne]

/-- Lines that can be read do not end the run. -/
theorem continues_of_uninterrupted {lines : List Bytes} (h : Uninterrupted lines) :
    Continues lines := by
  intro m _ _ dispatch
  induction lines with
  | nil => simp [EngineLoop.runSource, untilExit, behindExit]
  | cons line rest ih =>
    cases hexit : isExit line with
    | true =>
      have hnone := lineCommand_of_isExit hexit
      -- the exit is read as no command, and nothing is lost
      rw [EngineLoop.runSource_none hnone, untilExit, behindExit, if_pos hexit, if_pos hexit]
      simp [hnone]
    | false =>
      obtain ⟨hline, hrest⟩ := (uninterrupted_cons hexit).1 h
      have huntil : untilExit (line :: rest) = line :: untilExit rest := by
        rw [untilExit, hexit]
        rfl
      have hbehind : behindExit (line :: rest) = behindExit rest := by
        rw [behindExit, hexit]
        rfl
      rw [huntil, hbehind]
      cases hcommand : lineCommand line with
      | some cmd =>
        rw [EngineLoop.runSource_some hcommand, ih hrest, List.filterMap_cons_some hcommand]
        simp
      | none =>
        -- only the last line of the input may be no command
        have hnil : rest = [] := by
          by_contra hne
          have hsome := hline hne
          rw [hcommand] at hsome
          cases hsome
        subst hnil
        rw [EngineLoop.runSource_none hcommand, List.filterMap_cons_none hcommand]
        simp [untilExit, behindExit]

/-- A run that leaves the lines behind the exit has not been interrupted. -/
theorem uninterrupted_of_unread (dispatch : Command → Id Response) {lines : List Bytes}
    (h : (EngineLoop.runSource dispatch lines).2 = behindExit lines) : Uninterrupted lines := by
  induction lines with
  | nil => exact fun line hline => by cases hline
  | cons line rest ih =>
    cases hexit : isExit line with
    | true =>
      rw [Uninterrupted, untilExit, if_pos hexit]
      exact fun line hline => by cases hline
    | false =>
      have hbehind : behindExit (line :: rest) = behindExit rest := by
        rw [behindExit, hexit]
        rfl
      rw [hbehind] at h
      rw [uninterrupted_cons hexit]
      cases hcommand : lineCommand line with
      | some cmd =>
        rw [EngineLoop.runSource_some hcommand] at h
        exact ⟨fun _ => rfl, ih h⟩
      | none =>
        rw [EngineLoop.runSource_none hcommand] at h
        -- the run ended here, so nothing may have been behind the line
        have hunread : rest = behindExit rest := h
        have hnil : rest = [] := by
          by_contra hne
          have hlength := length_behindExit_lt hne
          rw [← hunread] at hlength
          exact absurd hlength (lt_irrefl _)
        exact ⟨fun hne => absurd hnil hne, hnil ▸ fun line hline => by cases hline⟩

/-- The run goes on to the exit exactly when every line that has another one behind it is a command. -/
theorem continues_iff (lines : List Bytes) : Continues lines ↔ Uninterrupted lines := by
  refine ⟨fun h => ?_, continues_of_uninterrupted⟩
  refine uninterrupted_of_unread (fun _ => .result noRows) ?_
  rw [h Id]
  rfl

/-- With the engine's own dispatch such a run is the run of its commands. -/
theorem runRepl_eq [StandardLibrary] {lines : List Bytes} (h : Uninterrupted lines) :
    EngineLoop.runRepl lines = do
      let answers ← EngineLoop.run ((untilExit lines).filterMap lineCommand)
      return (answers, behindExit lines) := by
  have hmap : ∀ cmds, EngineLoop.run cmds = cmds.mapM EngineLoop.dispatch := by
    intro cmds
    induction cmds with
    | nil => rfl
    | cons cmd cmds ih => rw [EngineLoop.run, ih, List.mapM_cons]
  rw [EngineLoop.runRepl, continues_of_uninterrupted h, hmap]

/-- A blank line between two commands. -/
def blankBetween : List Bytes := [ascii "SELECT a", ascii "", ascii "SELECT b", ascii "EXIT"]

theorem not_continues_blank :
    ((untilExit blankBetween).filterMap lineCommand).map Command.table = [ascii "a", ascii "b"] ∧
      (EngineLoop.runSource (m := Id) (fun _ => .result noRows) blankBetween).2 =
        [ascii "SELECT b", ascii "EXIT"] ∧ ¬ Continues blankBetween := by
  refine ⟨by decide +kernel, by decide +kernel, fun h => ?_⟩
  have hall : Uninterrupted blankBetween :=
    uninterrupted_of_unread (fun _ => .result noRows) (by rw [h Id]; rfl)
  have hblank := hall (ascii "") (by decide +kernel)
  exact absurd hblank (by decide +kernel)

end ReplSource

end OpenDB
