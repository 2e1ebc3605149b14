import MetalNes.Loop
import MetalNes.Outcomes
import MetalNes.Words

namespace MetalNes.Pl181

open Loop Outcomes

def bit (n : Nat) : U32 := 1 <<< n

def EXE : U32 := bit 10
def RESP : U32 := bit 6
def LRESP : U32 := RESP &&& bit 7

structure SdCard where
  rca : U32
  ishc : Bool
  deriving DecidableEq, Repr

/-- What the controller shows: the status register at every poll, the response register
after every number of commands, and the words of the FIFO one after the other. -/
structure Card where
  status : Nat → U32
  response : Nat → U32
  fifo : Nat → U32
  /-- Whether malloc returns NULL. -/
  refused : Bool

/-- The driver, with the number of its polls of the status register, the commands and
parameters it sent, and the words it stored in a buffer. -/
structure Driver where
  polls : Nat
  sent : List (U32 × U32)
  mmciSdCard : Option SdCard
  stored : List U32
  deriving DecidableEq, Repr

/-- Why a call has not returned: a loop still waits, or NULL was written through. -/
inductive Stop
  | waiting
  | nullPointer
  deriving DecidableEq, Repr

abbrev DriverM := EStateM Stop Driver

section Polling

variable (status : Nat → U32)

def activeBody (poll : Nat) : Iter Nat Nat :=
  if status poll &&& bit 11 ≠ 0 then .next (poll + 1) else .done (poll + 1)

def timeoutTest (poll : Nat) : Iter Nat Nat :=
  if status poll &&& bit 2 ≠ 0 then .done (poll + 1) else .next (poll + 1)

/-- The condition takes a second poll where the first one shows a response. -/
def responseBody (poll : Nat) : Iter Nat Nat :=
  if status poll &&& 0x40 ≠ bit 6 then timeoutTest status (poll + 1)
  else if status (poll + 1) &&& bit 11 ≠ 0 then timeoutTest status (poll + 2)
  else .done (poll + 2)

def sentBody (poll : Nat) : Iter Nat Nat :=
  if status poll &&& bit 7 ≠ bit 7 then .next (poll + 1) else .done (poll + 1)

def answerBody (arg : U32) : Nat → Iter Nat Nat :=
  if arg &&& RESP = RESP then responseBody status else sentBody status

end Polling

def wait (body : Nat → Iter Nat Nat) (fuel : Nat) : DriverM Unit := fun s =>
  match run body fuel s.polls with
  | none => .error .waiting s
  | some polls => .ok () { s with polls }

def readStatus (card : Card) : DriverM U32 := fun s => .ok (card.status s.polls) { s with polls := s.polls + 1 }

def readResponse (card : Card) : DriverM U32 := fun s => .ok (card.response s.sent.length) s

def writeCmd (arg param : U32) : DriverM Unit := fun s => .ok () { s with sent := s.sent ++ [(arg, param)] }

def mmciSendCmd (card : Card) (fuel : Nat) (arg param : U32) : DriverM Unit := do
  -- 1 << 11 is compared with itself, and the status is taken with the result, 0
  let _ ← readStatus card
  writeCmd arg param
  wait (activeBody card.status) fuel
  wait (answerBody card.status arg) fuel

/-- The command by which an application command is announced. -/
def cmd55 : Option SdCard → U32 × U32
  | none => (55 ||| EXE ||| RESP, 0)
  | some sd => (55, sd.rca)

def mmciSendAppCmd (card : Card) (fuel : Nat) (arg param : U32) : Nat → DriverM Bool
  | 0 => pure false
  | count + 1 => do
      let cmd := cmd55 (← get).mmciSdCard
      mmciSendCmd card fuel cmd.1 cmd.2
      if (← readResponse card) &&& bit 5 ≠ 0 then
        mmciSendCmd card fuel arg param
        return true
      else mmciSendAppCmd card fuel arg param count

/-- while((response[0] | (1 << 31)) == false). -/
def waitReady (card : Card) : Nat → DriverM Unit
  | 0 => throw .waiting
  | fuel + 1 => do if (← readResponse card) ||| bit 31 = 0 then waitReady card fuel

def malloc (card : Card) : DriverM Unit := if card.refused then throw .nullPointer else pure ()

/-- The first part of pl181_get_block_device: the high-capacity flag, or NULL to return. -/
def openCard (card : Card) (fuel : Nat) : DriverM (Option Bool) := do
  mmciSendCmd card fuel (0 ||| EXE) 0
  mmciSendCmd card fuel (8 ||| EXE ||| RESP) 0x1AA
  if (← readResponse card) ||| 0x1AA ≠ 0x1AA then return none
  if !(← mmciSendAppCmd card fuel (41 ||| EXE ||| RESP) (bit 30 ||| 0x1AA) 5) then return none
  return some (asBool ((← readResponse card) &&& bit 30))

/-- The second part. The test of the response to CMD16 only prints a message. -/
def selectCard (card : Card) (fuel : Nat) (isHC : Bool) : DriverM Unit := do
  waitReady card fuel
  mmciSendCmd card fuel (2 ||| EXE ||| LRESP) 0
  mmciSendCmd card fuel (3 ||| EXE ||| RESP) 0
  let rca := (← readResponse card) &&& 0xFFFF0000
  malloc card
  modify fun s => { s with mmciSdCard := some ⟨rca, isHC⟩ }
  mmciSendCmd card fuel (7 ||| EXE ||| RESP) rca
  mmciSendCmd card fuel (16 ||| EXE ||| RESP) 512
  malloc card

/-- Whether a block device is returned. -/
def pl181GetBlockDevice (card : Card) (fuel : Nat) : DriverM Bool := do
  match ← openCard card fuel with
  | none => return false
  | some isHC =>
      selectCard card fuel isHC
      return true

/-- The loop of mmci_read_block. -/
def readFifo (card : Card) : Nat → U32 → DriverM U32
  | 0, _ => throw .waiting
  | fuel + 1, bytesRead => do
      if (← readStatus card) &&& bit 21 ≠ 0 then
        modify fun s => { s with stored := s.stored ++ [card.fifo s.stored.length] }
        readFifo card fuel (bytesRead + 4)
      else return bytesRead

def mmciReadBlock (card : Card) (fuel : Nat) (addr : U32) : DriverM U32 := do
  modify fun s => { s with stored := [] }
  match (← get).mmciSdCard with
  | none => throw .nullPointer
  | some sd =>
      mmciSendCmd card fuel (17 ||| EXE ||| RESP) (if sd.ishc then addr else addr * 512)
      -- == true compares with 1
      if (← readStatus card) &&& bit 3 = 1 then return 0
      readFifo card fuel 0

/-- The polls from the one before a command to the one behind its answer. -/
def CommandEnds (card : Card) (arg : U32) (p p' : Nat) : Prop :=
  ∃ q, Returns (activeBody card.status) (p + 1) q ∧ Returns (answerBody card.status arg) q p'

def Driver.after (s : Driver) (arg param : U32) (polls : Nat) : Driver :=
  { s with sent := s.sent ++ [(arg, param)], polls }

section Commands

variable {card : Card} {fuel : Nat} {s : Driver}

theorem wait_ends (body : Nat → Iter Nat Nat) (fuel : Nat) (s : Driver) :
    Ends (wait body fuel) s (fun t => t = s) fun _ t => ∃ p, t = { s with polls := p } ∧ Returns body s.polls p := by
  cases h : run body fuel s.polls with
  | none => exact .of_error (e := .waiting) (t := s) (by rw [EStateM.run, wait, h]) rfl
  | some p => exact .of_ok (a := ()) (t := { s with polls := p }) (by rw [EStateM.run, wait, h]) ⟨p, rfl, fuel, h⟩

theorem wait_settles {body : Nat → Iter Nat Nat} {p : Nat} (h : Returns body s.polls p) :
    Settles (wait body) s () { s with polls := p } := by
  obtain ⟨n, hn⟩ := h
  exact ⟨n, fun fuel hfuel => by rw [EStateM.run, wait, run_mono hfuel hn]⟩

theorem mmciSendCmd_ends (card : Card) (fuel : Nat) (arg param : U32) (s : Driver) :
    Ends (mmciSendCmd card fuel arg param) s (fun t => ∃ p, t = s.after arg param p)
      fun _ t => ∃ p, t = s.after arg param p ∧ CommandEnds card arg s.polls p := by
  refine .bind_ok rfl (.bind_ok (t := s.after arg param (s.polls + 1)) rfl ?_)
  refine .bind (wait_ends _ _ _) (fun t ht => ⟨_, ht⟩) ?_
  rintro _ t ⟨q, rfl, hactive⟩
  refine .mono (wait_ends _ _ _) (fun t ht => ⟨_, ht⟩) ?_
  rintro _ t ⟨p, rfl, hanswer⟩
  exact ⟨p, rfl, q, hactive, hanswer⟩

theorem mmciSendCmd_settles {arg : U32} {p : Nat} (h : CommandEnds card arg s.polls p) (param : U32) :
    Settles (fun fuel => mmciSendCmd card fuel arg param) s () (s.after arg param p) := by
  obtain ⟨q, hactive, hanswer⟩ := h
  refine .bind (t := { s with polls := s.polls + 1 }) (.of_eq fun _ => rfl) ?_
  refine .bind (t := s.after arg param (s.polls + 1)) (.of_eq fun _ => rfl) ?_
  exact .bind (wait_settles hactive) (wait_settles hanswer)

end Commands

end MetalNes.Pl181
