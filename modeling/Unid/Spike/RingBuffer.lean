import Unid.Lib.Spsc

/-!
# The ring buffers

`ringbuffer` and `ringbuffer2` of `ipc_ringbuffer.cpp`: a ring of `int`s between a
thread that pushes and a thread that pops.  Each side loads its own index relaxed
and the other's acquiring, and publishes its own with a releasing store.
`ringbuffer2` saves most loads of the other's index: each side keeps a copy of it
and loads the index again only when the copy says that it can not go on.

## Main definitions

* `Ringbuffer.push`, `Ringbuffer.pop` — the plain ring.
* `Ringbuffer2.push`, `Ringbuffer2.pop` — the ring with copies of the indices.
* `drained` — the test of the last loop of `bench`.
* `ringThreads` — a producer and a consumer, as threads on one ring.
* `bench` — the two threads of the benchmark.
-/

namespace Unid.Spike
open Lib

/-- `size_t`. -/
abbrev Size := BitVec 64

/-- `int`. -/
abbrev IntVal := BitVec 32

/-- The plain members of `ringbuffer2` beside the data. -/
inductive Cached
  | readIdx
  | writeIdx
  deriving DecidableEq

/-- The side that uses the copy. -/
def Cached.owner : Cached → Option Side
  | readIdx => some .producer
  | writeIdx => some .consumer

abbrev RbSig : Sig := RingSig Size IntVal Cached fun _ => Size

/-- Ring buffer code. -/
abbrev Rb (α : Type) := Prog RbSig α

abbrev RbShared := RingShared Size IntVal Cached fun _ => Size

/-! ## The members -/

abbrev loadIdx (o : Order) (a : RingIndex) : Rb Size :=
  Access.ask (W := Cell.Val IntVal fun _ : Cached => Size) (.load o a)

abbrev storeIdx (a : RingIndex) (i : Size) : Rb Unit :=
  Access.ask (W := Cell.Val IntVal fun _ : Cached => Size) (.store a i)

/-- `data_[i]`. -/
abbrev readData (i : Size) : Rb IntVal :=
  Access.ask (W := Cell.Val IntVal fun _ : Cached => Size) (.read (.slot i.toNat))

abbrev writeData (i : Size) (val : IntVal) : Rb Unit :=
  Access.ask (W := Cell.Val IntVal fun _ : Cached => Size) (.write (.slot i.toNat) val)

abbrev readCached (x : Cached) : Rb Size :=
  Access.ask (W := Cell.Val IntVal fun _ : Cached => Size) (.read (.own x))

abbrev writeCached (x : Cached) (i : Size) : Rb Unit :=
  Access.ask (W := Cell.Val IntVal fun _ : Cached => Size) (.write (.own x) i)

/-- The index after `i`, in data of this size. -/
def nextIdx (size i : Size) : Size := if i + 1 = size then 0 else i + 1

/-! ## The code -/

namespace Ringbuffer

def push (size : Size) (val : IntVal) : Rb Bool := do
  let writeIdx ← loadIdx .relaxed .write
  let nextWriteIdx := nextIdx size writeIdx
  if nextWriteIdx = (← loadIdx .acquire .read) then pure false
  else do
    writeData writeIdx val
    storeIdx .write nextWriteIdx
    pure true

/-- `pop`: the value it writes into its argument when it returns `true`. -/
def pop (size : Size) : Rb (Option IntVal) := do
  let readIdx ← loadIdx .relaxed .read
  if readIdx = (← loadIdx .acquire .write) then pure none
  else do
    let val ← readData readIdx
    storeIdx .read (nextIdx size readIdx)
    pure (some val)

end Ringbuffer

namespace Ringbuffer2

/-- The end of `push`, once there is room. -/
def put (writeIdx nextWriteIdx : Size) (val : IntVal) : Rb Bool := do
  writeData writeIdx val
  storeIdx .write nextWriteIdx
  pure true

def push (size : Size) (val : IntVal) : Rb Bool := do
  let writeIdx ← loadIdx .relaxed .write
  let nextWriteIdx := nextIdx size writeIdx
  if nextWriteIdx = (← readCached .readIdx) then do
    writeCached .readIdx (← loadIdx .acquire .read)
    if nextWriteIdx = (← readCached .readIdx) then pure false
    else put writeIdx nextWriteIdx val
  else put writeIdx nextWriteIdx val

/-- The end of `pop`, once there is a value. -/
def take (size readIdx : Size) : Rb (Option IntVal) := do
  let val ← readData readIdx
  storeIdx .read (nextIdx size readIdx)
  pure (some val)

def pop (size : Size) : Rb (Option IntVal) := do
  let readIdx ← loadIdx .relaxed .read
  if readIdx = (← readCached .writeIdx) then do
    writeCached .writeIdx (← loadIdx .acquire .write)
    if readIdx = (← readCached .writeIdx) then pure none
    else take size readIdx
  else take size readIdx

end Ringbuffer2

/-- One turn of the loop in which `bench` waits for the consumer.  Which operand of `!=` is loaded
first is left to the compiler. -/
def drained (readFirst : Bool) : Rb Bool :=
  if readFirst then do
    let readIdx ← loadIdx .relaxed .read
    let writeIdx ← loadIdx .relaxed .write
    pure (readIdx = writeIdx)
  else do
    let writeIdx ← loadIdx .relaxed .write
    let readIdx ← loadIdx .relaxed .read
    pure (readIdx = writeIdx)

/-! ## Producer and consumer -/

/-- The template argument of `bench`. -/
inductive Kind
  | ringbuffer
  | ringbuffer2
  deriving DecidableEq

def Kind.push : Kind → Size → IntVal → Rb Bool
  | ringbuffer => Ringbuffer.push
  | ringbuffer2 => Ringbuffer2.push

def Kind.pop : Kind → Size → Rb (Option IntVal)
  | ringbuffer => Ringbuffer.pop
  | ringbuffer2 => Ringbuffer2.pop

inductive RingCall
  | push (val : IntVal)
  | pop
  | drained (readFirst : Bool)
  deriving DecidableEq

inductive RingResult
  | pushed (ok : Bool)
  | popped (val : Option IntVal)
  | drained (yes : Bool)

/-- What a call sends. -/
def RingCall.value : RingCall → Option IntVal
  | push val => some val
  | _ => none

def ringCode (kind : Kind) (size : Size) : RingCall → Prog RbSig RingResult
  | .push val => do pure (.pushed (← kind.push size val))
  | .pop => do pure (.popped (← kind.pop size))
  | .drained readFirst => do pure (.drained (← drained readFirst))

/-- The producer pushes and waits, the consumer pops. -/
def mayCall : Side → RingCall → Prop
  | .producer, .push _ | .producer, .drained _ | .consumer, .pop => True
  | _, _ => False

instance (t : Side) (c : RingCall) : Decidable (mayCall t c) :=
  match t, c with
  | .producer, .push _ | .producer, .drained _ | .consumer, .pop => .isTrue trivial
  | .producer, .pop | .consumer, .push _ | .consumer, .drained _ => .isFalse id

/-- A call's result goes on the record; the waiting loop may end only when all is taken. -/
def finishCall (s : RbShared) : RingCall → RingResult → RbShared
  | .push val, .pushed true => { s with accepted := s.accepted ++ [val] }
  | .pop, .popped (some val) => { s with popped := s.popped ++ [val] }
  | .drained _, .drained true => { s with checks := s.checks && decide (s.taken = s.sent.length) }
  | _, _ => s

/-- A producer and a consumer with any calls they like. -/
def ringThreads (kind : Kind) (size : Size) : Threads RbSig RbShared Side RingCall RingResult where
  code _ := ringCode kind size
  mayCall t c _ := mayCall t c
  handle t c := RingShared.perform size.toNat t c.value
  allowed t i e s := WeakMem.Allowed t i e s.mem
  finish _ c r s := finishCall s c r

instance (kind : Kind) (size : Size) (t : Side) (c : RingCall) (s : RbShared) :
    Decidable ((ringThreads kind size).mayCall t c s) :=
  inferInstanceAs (Decidable (mayCall t c))

instance (kind : Kind) (size : Size) (t : Side) (i : ℕ) (e : RbSig.Req) (s : RbShared) :
    Decidable ((ringThreads kind size).allowed t i e s) :=
  inferInstanceAs (Decidable (WeakMem.Allowed t i e s.mem))

/-- The constructor: zeros in the data, and all indices zero. -/
def newRing : RbShared :=
  .start (.init (fun _ => 0) fun
    | .slot _ => (0 : IntVal)
    | .own _ => (0 : Size))

/-! ## The benchmark -/

/-- The loops of `bench`: the producer pushes 0, 1, … and waits when it has pushed them all, the
consumer pops as many. -/
def benchCall (iters : ℕ) (s : RbShared) : Side → RingCall → Prop
  | .producer, .push val =>
      s.accepted.length < iters ∧ val = BitVec.ofNat 32 s.accepted.length
  | .producer, .drained _ => s.accepted.length = iters
  | .consumer, .pop => s.popped.length < iters
  | _, _ => False

/-- The consumer's check, for which `bench` throws. -/
def benchCheck (s : RbShared) : RingResult → Bool
  | .popped (some val) => val = BitVec.ofNat 32 s.popped.length
  | _ => true

def bench (kind : Kind) (size : Size) (iters : ℕ) :
    Threads RbSig RbShared Side RingCall RingResult where
  code _ := ringCode kind size
  mayCall t c s := benchCall iters s t c
  handle t c := RingShared.perform size.toNat t c.value
  allowed t i e s := WeakMem.Allowed t i e s.mem
  finish _ c r s := finishCall { s with checks := s.checks && benchCheck s r } c r

instance (iters : ℕ) (s : RbShared) (t : Side) (c : RingCall) : Decidable (benchCall iters s t c) :=
  match t, c with
  | .producer, .push _ => inferInstanceAs (Decidable (_ ∧ _))
  | .producer, .drained _ => inferInstanceAs (Decidable (_ = _))
  | .consumer, .pop => inferInstanceAs (Decidable (_ < _))
  | .producer, .pop | .consumer, .push _ | .consumer, .drained _ => .isFalse id

instance (kind : Kind) (size : Size) (iters : ℕ) (t : Side) (c : RingCall) (s : RbShared) :
    Decidable ((bench kind size iters).mayCall t c s) :=
  inferInstanceAs (Decidable (benchCall iters s t c))

instance (kind : Kind) (size : Size) (iters : ℕ) (t : Side) (i : ℕ) (e : RbSig.Req) (s : RbShared) :
    Decidable ((bench kind size iters).allowed t i e s) :=
  inferInstanceAs (Decidable (WeakMem.Allowed t i e s.mem))

end Unid.Spike
