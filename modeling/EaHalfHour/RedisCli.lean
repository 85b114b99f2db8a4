import EaHalfHour.LabelledRun
import EaHalfHour.KvMessage

/-! The interactive loop of redis_cli over any finite terminal input. GNU readline is a
parameter, which sees of the terminal what cli_getc makes of it. -/
namespace EaHalfHour.RedisCli
open LabelledRun KvMessage

inductive Key where
  | char (c : UInt8)
  | interrupt
deriving DecidableEq

structure Terminal where
  keys : List Key
  ends : Nat := 0
deriving DecidableEq

def EINTR : Int := 4

section Input
variable (errno : Nat → Int)

/-- A character, or EOF with the value errno then has. An interrupted read sets
EINTR. The end of the input sets nothing: errno is what earlier calls left there,
`errno n` when the end is met for the n-th time. -/
def getc (t : Terminal) : Except Int UInt8 × Terminal :=
  match t.keys with
  | .char c :: keys => (.ok c,{ t with keys })
  | .interrupt :: keys => (.error EINTR,{ t with keys })
  | [] => (.error (errno t.ends),{ t with ends := t.ends+1 })

/-- None is EOF. The flag is g_canceled. -/
def cliGetc (canceled : Bool) (t : Terminal) : Option UInt8 × Bool × Terminal :=
  match getc errno t with
  | (.ok c,t) => (some c,canceled,t)
  | (.error e,t) => if e = EINTR then (some 10,true,t) else (none,canceled,t)

def afterReads : Nat → Bool → Terminal → Bool × Terminal
  | 0, canceled, t => (canceled,t)
  | n+1, canceled, t =>
    let (_,canceled,t) := cliGetc errno canceled t
    afterReads n canceled t

def upcoming (t : Terminal) (n : Nat) : Option UInt8 :=
  (cliGetc errno false (afterReads errno n false t).2).1

end Input

/-- What a call of readline returns: how often it has called cli_getc, the line or NULL,
and its state. -/
structure Call (ρ : Type) where
  reads : Nat
  line : Option Bytes
  state : ρ

structure Library (ρ : Type) where
  readline : ρ → (Nat → Option UInt8) → Call ρ
  addHistory : ρ → Bytes → ρ

/-- An end of file on an empty line makes readline return NULL, however often. -/
def Library.EndsAtEof {ρ : Type} (library : Library ρ) : Prop :=
  ∀ state input, input 0 = none →
    (library.readline state input).reads = 1 ∧ (library.readline state input).line = none

structure State (ρ : Type) where
  terminal : Terminal
  canceled : Bool := false
  library : ρ

section Loop
variable {ρ : Type} (library : Library ρ) (errno : Nat → Int)

def readline (s : State ρ) : Option Bytes × State ρ :=
  let call := library.readline s.library (upcoming errno s.terminal)
  let (canceled,terminal) := afterReads errno call.reads s.canceled s.terminal
  (call.line,{ terminal, canceled, library := call.state })

/-- One pass of the loop; none where it returns. What access_redis prints is left out. -/
def pass (s : State ρ) : Option (State ρ) :=
  let (command,s) := readline library errno s
  match command with
  | none | some [] =>
    if s.canceled then none  -- Ctrl-C with no input after the prompt
    else some s
  | some command =>
    if s.canceled then some { s with canceled := false }
    else
      let s := { s with library := library.addHistory s.library command }
      if command = text "help" then some s
      else if command = text "quit" then none
      else some s

end Loop

section Lines
variable {ρ : Type} (library : Library ρ) (errno : Nat → Int)

namespace State

/-- The line that the next call of readline returns; an empty one for NULL. -/
def line (s : State ρ) : Bytes :=
  ((library.readline s.library (upcoming errno s.terminal)).line).getD []

def cut (s : State ρ) : Bool :=
  (afterReads errno (library.readline s.library (upcoming errno s.terminal)).reads false
    s.terminal).1

def next (s : State ρ) : State ρ :=
  let call := library.readline s.library (upcoming errno s.terminal)
  { terminal := (afterReads errno call.reads false s.terminal).2
    library := if s.cut library errno ∨ s.line library errno = [] then call.state
      else library.addHistory call.state (s.line library errno) }

def afterLines (s : State ρ) : Nat → State ρ
  | 0 => s
  | n+1 => (s.afterLines n).next library errno

/-- The line is one that Ctrl-C ends before anything stands in it, or it is "quit". -/
def Quits (s : State ρ) : Prop :=
  if s.cut library errno then s.line library errno = []
  else s.line library errno = text "quit"

instance (s : State ρ) : Decidable (s.Quits library errno) :=
  inferInstanceAs (Decidable (if s.cut library errno then s.line library errno = []
    else s.line library errno = text "quit"))

/-- The next read meets the end of the input. An end that is met while errno is EINTR
passes for a Ctrl-C. -/
def AtEnd (s : State ρ) : Prop := upcoming errno s.terminal 0 = none

instance (s : State ρ) : Decidable (s.AtEnd errno) := inferInstanceAs (Decidable (_ = none))

end State

variable {library errno}

theorem afterLines_canceled {s : State ρ} (h : s.canceled = false) (n : Nat) :
    (s.afterLines library errno n).canceled = false := by
  cases n with
  | zero => exact h
  | succ n => rfl

theorem readline_eq {s : State ρ} (h : s.canceled = false) :
    readline library errno s =
      ((library.readline s.library (upcoming errno s.terminal)).line,
        { terminal := (s.next library errno).terminal, canceled := s.cut library errno
          library := (library.readline s.library (upcoming errno s.terminal)).state }) := by
  obtain ⟨terminal,canceled,state⟩ := s
  obtain rfl : canceled = false := h
  rfl

theorem pass_eq {s : State ρ} (h : s.canceled = false) : pass library errno s =
    if s.Quits library errno then none else some (s.next library errno) := by
  have hquit : text "quit" ≠ [] := by decide
  have hhelp : text "help" ≠ text "quit" := by decide
  rw [pass, readline_eq h]
  cases hcall : (library.readline s.library (upcoming errno s.terminal)).line with
  | none =>
    have hline : s.line library errno = [] := by simp [State.line, hcall]
    cases hcut : s.cut library errno <;> simp [State.Quits, State.next, hline, hcut, hquit.symm]
  | some command =>
    have hline : s.line library errno = command := by simp [State.line, hcall]
    cases command with
    | nil =>
      cases hcut : s.cut library errno <;> simp [State.Quits, State.next, hline, hcut, hquit.symm]
    | cons c command =>
      cases hcut : s.cut library errno with
      | true => simp [State.Quits, State.next, hline, hcut]
      | false =>
        by_cases heq : c :: command = text "help"
        · simp [State.Quits, State.next, hline, hcut, heq, hhelp]
          simp [← heq]
        · simp [State.Quits, State.next, hline, hcut, heq]

theorem not_quits_atEnd (hlibrary : library.EndsAtEof) {s : State ρ} (h : s.AtEnd errno) :
    ¬ s.Quits library errno := by
  obtain ⟨hreads,hline⟩ := hlibrary s.library _ h
  have hcut : s.cut library errno = false := by
    rw [State.cut, hreads]
    unfold State.AtEnd upcoming at h
    simp only [afterReads] at h ⊢
    unfold cliGetc at h ⊢
    split at h
    · cases h
    · split at h
      · cases h
      · rename_i hget hne
        simp [hne]
  simp only [State.Quits, State.line, hcut, hline]
  decide

end Lines

section Main
variable {ρ : Type} (library : Library ρ) (errno : Nat → Int)

def start (state : ρ) (keys : List Key) : State ρ := { terminal := { keys }, library := state }

/-- The loop is left exactly when some call of readline before the end of the input
quits. The end of the input does not: it makes empty lines for ever. -/
theorem leaves_iff_some_quits (hlibrary : library.EndsAtEof) (state : ρ) (keys : List Key) :
    Leaves (pass library errno) (start state keys) ↔
      ∃ n, ¬ ((start state keys).afterLines library errno n).AtEnd errno ∧
        ((start state keys).afterLines library errno n).Quits library errno := by
  have hexit : ∀ n, ((start state keys).afterLines library errno n).Quits library errno →
      pass library errno ((start state keys).afterLines library errno n) = none := by
    intro n hq
    rw [pass_eq (afterLines_canceled rfl n), if_pos hq]
  have hleaves : Leaves (pass library errno) (start state keys) ↔
      ∃ n, ((start state keys).afterLines library errno n).Quits library errno := by
    refine leaves_iff hexit fun n hq => ?_
    rw [pass_eq (afterLines_canceled rfl n), if_neg hq]
    rfl
  rw [hleaves]
  refine exists_congr fun n => ⟨fun hq => ⟨fun hend => ?_,hq⟩,fun h => h.2⟩
  exact not_quits_atEnd hlibrary hend hq

end Main

def readShort : Nat → (Nat → Option UInt8) → Nat × Option Bytes
  | 0, _ => (0,some [])
  | n+1, input =>
    match input 0 with
    | none => (1,none)
    | some c =>
      if c = 10 then (1,some [])
      else
        let (reads,line) := readShort n fun k => input (k+1)
        (reads+1,line.map (c :: ·))

def shortLines : Library Unit where
  readline _ input :=
    let (reads,line) := readShort 80 input
    ⟨reads,line,()⟩
  addHistory _ _ := ()

theorem readShort_eof (n : Nat) {input : Nat → Option UInt8} (h : input 0 = none) :
    readShort (n+1) input = (1,none) := by
  simp [readShort, h]

theorem shortLines_endsAtEof : shortLines.EndsAtEof := by
  intro _ input h
  change (readShort 80 input).1 = 1 ∧ (readShort 80 input).2 = none
  rw [readShort_eof 79 h]
  exact ⟨rfl,rfl⟩

def typed (s : String) : List Key := (text s).map .char

theorem leaves_quit :
    Leaves (pass shortLines fun _ => 0) (start () (typed "help\nquit\n")) :=
  (leaves_iff_some_quits shortLines (fun _ => 0) shortLines_endsAtEof () _).mpr
    ⟨1,by decide,by decide⟩

theorem not_leaves_empty : ¬ Leaves (pass shortLines fun _ => 0) (start () []) := by
  refine not_leaves_of_progress (fun s => s.terminal.keys = [] ∧ s.canceled = false) ?_ ⟨rfl,rfl⟩
  rintro ⟨⟨keys,ends⟩,canceled,state⟩ ⟨hkeys,hcanceled⟩
  obtain rfl : keys = [] := hkeys
  obtain rfl : canceled = false := hcanceled
  exact ⟨_,rfl,rfl,rfl⟩

end EaHalfHour.RedisCli
