import Nachos.Library.Transition
import Nachos.Model.Basic

/-! # The console

`console.cc` and the echo of `progtest.cc`. The device polls the keyboard; a character that
has arrived is kept in a buffer of one character and announced by an interrupt. -/

namespace Nachos

open Library

/-- `EOF` as a `char`, which is signed on the host. -/
abbrev EOF : Byte := 0xff

/-- `keyboard` is what can still be read from `readFile` and `display` what has been written to
`writeFile`. -/
structure Console where
  incoming : Byte
  putBusy : Bool
  keyboard : List Byte
  display : List Byte

namespace Console

def new (keyboard : List Byte) : Console := ⟨EOF, false, keyboard, []⟩

/-- `CheckCharAvail`, and whether it calls the read handler; `polled` is what `PollFile`
returns. A read behind the last character fails. -/
def checkCharAvail (c : Console) (polled : Bool) : Exec (Console × Bool) :=
  if c.incoming ≠ EOF ∨ polled = false then .ok (c, false)
  else
    match c.keyboard with
    | [] => .error .assertion
    | ch :: rest => .ok ({ c with incoming := ch, keyboard := rest }, true)

def writeDone (c : Console) : Console := { c with putBusy := false }

def getChar (c : Console) : Byte × Console := (c.incoming, { c with incoming := EOF })

def putChar (c : Console) (ch : Byte) : Exec Console := do
  assert (c.putBusy = false)
  return { c with display := c.display ++ [ch], putBusy := true }

end Console

/-! ## A reader -/

/-- A thread that calls `GetChar` once for each `P` of the semaphore that the read handler
`V`s. It is `inside` between the two, and has been given the characters `returned`. -/
structure Reader where
  console : Console
  readAvail : ℕ
  inside : Bool
  returned : List Byte

namespace Reader

def start (keyboard : List Byte) : Reader := ⟨.new keyboard, 0, false, []⟩

inductive Event where
  | poll (polled : Bool)
  | wait
  | get
  | put (ch : Byte)
  | written

/-- The reader and the interrupts in any order; the reader may write characters as well. -/
inductive Step : Reader → Event → Reader → Prop where
  | poll {r : Reader} {polled : Bool} {c : Console} {called : Bool}
      (h : r.console.checkCharAvail polled = .ok (c, called)) :
      Step r (.poll polled) { r with console := c, readAvail := r.readAvail + called.toNat }
  | wait {r : Reader} {n : ℕ} (hout : r.inside = false) (h : r.readAvail = n + 1) :
      Step r .wait { r with readAvail := n, inside := true }
  | get {r : Reader} (h : r.inside = true) :
      Step r .get { r with
        console := r.console.getChar.2
        inside := false
        returned := r.returned ++ [r.console.getChar.1] }
  | put {r : Reader} {ch : Byte} {c : Console} (h : r.console.putChar ch = .ok c) :
      Step r (.put ch) { r with console := c }
  | written {r : Reader} (h : r.console.putBusy = true) :
      Step r .written { r with console := r.console.writeDone }

def system (keyboard : List Byte) : System Reader Event Unit where
  init r := r = start keyboard
  step r e _ r' := Step r e r'

end Reader

/-! ## The echo -/

/-- Where `ConsoleTest` is in its loop: at `readAvail->P()` or `GetChar`, at `PutChar`, at
`writeDone->P()`, or behind the loop. -/
inductive EchoPhase where
  | reading
  | writing (ch : Byte)
  | waiting (ch : Byte)
  | finished

structure ConsoleTest where
  reader : Reader
  writeDone : ℕ
  phase : EchoPhase

namespace ConsoleTest

inductive Step : ConsoleTest → Reader.Event → ConsoleTest → Prop where
  | poll {t : ConsoleTest} {polled : Bool} {r : Reader} (h : t.reader.Step (.poll polled) r) :
      Step t (.poll polled) { t with reader := r }
  | wait {t : ConsoleTest} {r : Reader} (hphase : t.phase = .reading)
      (h : t.reader.Step .wait r) : Step t .wait { t with reader := r }
  | get {t : ConsoleTest} {r : Reader} (hphase : t.phase = .reading) (h : t.reader.Step .get r) :
      Step t .get { t with reader := r, phase := .writing t.reader.console.getChar.1 }
  | put {t : ConsoleTest} {ch : Byte} {r : Reader} (hphase : t.phase = .writing ch)
      (h : t.reader.Step (.put ch) r) : Step t (.put ch) { t with reader := r, phase := .waiting ch }
  | written {t : ConsoleTest} {r : Reader} (h : t.reader.Step .written r) :
      Step t .written { t with reader := r, writeDone := t.writeDone + 1 }
  | next {t : ConsoleTest} {ch : Byte} {n : ℕ} (hphase : t.phase = .waiting ch)
      (h : t.writeDone = n + 1) :
      Step t .wait { t with
        writeDone := n
        phase := if ch = 113 then .finished else .reading }

def system (keyboard : List Byte) : System ConsoleTest Reader.Event Unit where
  init t := t = ⟨.start keyboard, 0, .reading⟩
  step t e _ t' := Step t e t'

end ConsoleTest

end Nachos
