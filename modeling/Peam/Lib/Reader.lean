import Mathlib.Algebra.BigOperators.Group.List.Basic
import Peam.Lib.Bits
import Peam.Lib.Traced

/-!
# Reading from a stream on credit

A reader takes bytes from the front of a stream and asks for buffers on the way. Its trace records
how many bytes it received, which lengths the stream declared, and which buffers it asked for. A
buffer is *paid* when the bytes received so far, at a fixed rate, and the declared lengths cover it.

`Pays` is a rule of pre- and postconditions with a credit: reading adds to the credit, a buffer is
taken out of it. What a reader asks for in total is then bounded by what it received and what was
declared, and the rules also say that it ends, and that it panics on a declared length only.
-/

namespace Streams

open Packed (Byte)
open Traces

inductive IoErrorKind where
  | unexpectedEof
  | invalidData
  | other
  deriving DecidableEq, Repr

structure IoError where
  kind : IoErrorKind
  text : String
  deriving DecidableEq, Repr

/-- How a reader fails: with an error of the stream or of its own, by a panic, or, in a loop under a
bound on its turns, by using the bound up. -/
inductive ReadFailure where
  | io (e : IoError)
  | panicked (text : String)
  | unended
  deriving DecidableEq, Repr

/-- The bytes still to come, and the error after them; without one the stream just ends. -/
structure Stream where
  bytes : List Byte
  ending : Option IoError

inductive Event where
  | received (count : Nat)
  | declared (length : Nat)
  | requested (size : Nat)
  deriving DecidableEq, Repr

/-- The outcome of a run with its trace. -/
abbrev Ran (β : Type) := Traced Event (Except ReadFailure β)

/-- A reader. -/
def Reading (α : Type) := Stream → Ran (α × Stream)

/-- The largest buffer that can be asked for, `isize::MAX` bytes. -/
def maxBuffer : Nat := 2 ^ 63 - 1

namespace Reading

variable {α β : Type}

instance : Monad Reading where
  pure a := fun stream => ⟨[], .ok (a, stream)⟩
  bind x f := fun stream =>
    match (x stream).value with
    | .error e => ⟨(x stream).events, .error e⟩
    | .ok (a, rest) => ⟨(x stream).events ++ (f a rest).events, (f a rest).value⟩

def fail (failure : ReadFailure) : Reading α := fun _ => ⟨[], .error failure⟩

/-- `return Err(io::Error::new(kind, text))`. -/
def failWith (kind : IoErrorKind) (text : String) : Reading α := fail (.io ⟨kind, text⟩)

/-- Lift a result that reads nothing. -/
def lift (x : Except IoError α) : Reading α :=
  match x with
  | .error e => fail (.io e)
  | .ok a => pure a

/-- `read_exact` into a buffer of `count` bytes. -/
def readExact (count : Nat) : Reading (List Byte) := fun stream =>
  if count ≤ stream.bytes.length then
    ⟨[.received count], .ok (stream.bytes.take count, { stream with bytes := stream.bytes.drop count })⟩
  else
    ⟨[.received stream.bytes.length],
      .error (.io (stream.ending.getD ⟨.unexpectedEof, "unexpected end of file"⟩))⟩

/-- `read_to_end`. -/
def readToEnd : Reading (List Byte) := fun stream =>
  match stream.ending with
  | some e => ⟨[.received stream.bytes.length], .error (.io e)⟩
  | none => ⟨[.received stream.bytes.length], .ok (stream.bytes, { stream with bytes := [] })⟩

/-- A reader whose end of the stream is not an error. -/
def orEof (x : Reading α) : Reading (Option α) := fun stream =>
  match (x stream).value with
  | .ok (a, rest) => ⟨(x stream).events, .ok (some a, rest)⟩
  | .error (.io e) =>
    if e.kind = .unexpectedEof then
      ⟨(x stream).events, .ok (none, { stream with bytes := [] })⟩
    else ⟨(x stream).events, .error (.io e)⟩
  | .error e => ⟨(x stream).events, .error e⟩

/-- A buffer of `size` bytes. -/
def allocate (size : Nat) : Reading Unit := fun stream =>
  ⟨[.requested size],
    if size ≤ maxBuffer then .ok ((), stream) else .error (.panicked "capacity overflow")⟩

/-- A buffer of a length the stream declared. -/
def reserve (length : Nat) : Reading Unit := fun stream =>
  ⟨[.declared length, .requested length],
    if length ≤ maxBuffer then .ok ((), stream) else .error (.panicked "capacity overflow")⟩

/-- A reader that may depend on the number of bytes left, as the bound of a loop does. -/
def withBytesLeft (f : Nat → Reading α) : Reading α := fun stream => f stream.bytes.length stream

end Reading

/-! ## Accounts -/

def received (events : List Event) : Nat :=
  (events.map fun | .received count => count | _ => 0).sum

def requested (events : List Event) : Nat :=
  (events.map fun | .requested size => size | _ => 0).sum

def declared (events : List Event) : List Nat :=
  events.filterMap fun | .declared length => some length | _ => none

@[simp] theorem received_append (events more : List Event) :
    received (events ++ more) = received events + received more := by
  simp [received]

@[simp] theorem requested_append (events more : List Event) :
    requested (events ++ more) = requested events + requested more := by
  simp [requested]

@[simp] theorem declared_append (events more : List Event) :
    declared (events ++ more) = declared events ++ declared more := by
  simp [declared]

@[simp] theorem received_nil : received [] = 0 := rfl
@[simp] theorem requested_nil : requested [] = 0 := rfl
@[simp] theorem declared_nil : declared [] = [] := rfl

section Cons

variable (n : Nat) (events : List Event)

@[simp] theorem received_received : received (.received n :: events) = n + received events := rfl

@[simp] theorem received_declared : received (.declared n :: events) = received events :=
  Nat.zero_add _

@[simp] theorem received_requested : received (.requested n :: events) = received events :=
  Nat.zero_add _

@[simp] theorem requested_received : requested (.received n :: events) = requested events :=
  Nat.zero_add _

@[simp] theorem requested_declared : requested (.declared n :: events) = requested events :=
  Nat.zero_add _

@[simp] theorem requested_requested :
    requested (.requested n :: events) = n + requested events := rfl

@[simp] theorem declared_received : declared (.received n :: events) = declared events := rfl

@[simp] theorem declared_declared : declared (.declared n :: events) = n :: declared events := rfl

@[simp] theorem declared_requested : declared (.requested n :: events) = declared events := rfl

end Cons

/-- The declared lengths of a trace. -/
theorem mem_declared {events : List Event} {length : Nat} :
    length ∈ declared events ↔ Event.declared length ∈ events := by
  unfold declared
  rw [List.mem_filterMap]
  constructor
  · intro h
    obtain ⟨event, hmem, hevent⟩ := h
    cases event with
    | declared length' =>
      cases hevent
      exact hmem
    | received count => cases hevent
    | requested size => cases hevent
  · exact fun h => ⟨.declared length, h, rfl⟩

/-- What a trace adds to a credit. -/
def earned (rate : Nat) (events : List Event) : Nat :=
  rate * received events + (declared events).sum

@[simp] theorem earned_append (rate : Nat) (events more : List Event) :
    earned rate (events ++ more) = earned rate events + earned rate more := by
  simp only [earned, received_append, declared_append, List.sum_append, Nat.mul_add]
  omega

@[simp] theorem earned_nil (rate : Nat) : earned rate [] = 0 := by
  simp [earned]

/-! ## The rules -/

section Rules

variable {α β : Type} {rate credit : Nat} {stream : Stream}

/-- Run with `credit`, the reader ends, pays for every buffer, and when it returns leaves a credit
with `post`. -/
def Pays (rate credit : Nat) (x : Reading α) (stream : Stream)
    (post : α → Stream → Nat → Prop) : Prop :=
  match (x stream).value with
  | .ok (a, rest) => ∃ left,
      requested (x stream).events + left ≤ credit + earned rate (x stream).events ∧ post a rest left
  | .error (.io _) => requested (x stream).events ≤ credit + earned rate (x stream).events
  | .error (.panicked _) =>
      requested (x stream).events ≤ credit + earned rate (x stream).events ∧
        ∃ length ∈ declared (x stream).events, maxBuffer < length
  | .error .unended => False

variable {post : α → Stream → Nat → Prop} {x : Reading α}

/-- Returning costs nothing. -/
theorem Pays.pure {a : α} (h : post a stream credit) :
    Pays rate credit (pure a) stream post :=
  ⟨credit, by simp [Pure.pure], h⟩

/-- A failure has nothing to pay. -/
theorem Pays.failWith {kind : IoErrorKind} {text : String} :
    Pays rate credit (Reading.failWith kind text) stream post := by
  simp [Pays, Reading.failWith, Reading.fail]

/-- A pure call costs nothing. -/
theorem Pays.lift (x : Except IoError α) :
    Pays rate credit (Reading.lift x) stream fun a rest left =>
      x = .ok a ∧ rest = stream ∧ left = credit := by
  cases x with
  | error e => simp [Pays, Reading.lift, Reading.fail]
  | ok a => exact Pays.pure ⟨rfl, rfl, rfl⟩

/-- Sequencing: the second reader runs on the credit the first leaves. -/
theorem Pays.bind {f : α → Reading β} {mid : α → Stream → Nat → Prop}
    {post : β → Stream → Nat → Prop} (hx : Pays rate credit x stream mid)
    (hf : ∀ a rest left, mid a rest left → Pays rate left (f a) rest post) :
    Pays rate credit (x >>= f) stream post := by
  unfold Pays at hx ⊢
  have hrun : (x >>= f) stream = match (x stream).value with
    | .error e => ⟨(x stream).events, .error e⟩
    | .ok (a, rest) => ⟨(x stream).events ++ (f a rest).events, (f a rest).value⟩ := rfl
  rw [hrun]
  cases hvalue : (x stream).value with
  | error e =>
    rw [hvalue] at hx
    cases e with
    | io e => exact hx
    | panicked text => exact hx
    | unended => exact hx
  | ok result =>
    obtain ⟨a, rest⟩ := result
    rw [hvalue] at hx
    obtain ⟨left, hpaid, hmid⟩ := hx
    have hnext := hf a rest left hmid
    unfold Pays at hnext
    dsimp only
    cases hsecond : (f a rest).value with
    | error e =>
      rw [hsecond] at hnext
      cases e with
      | io e =>
        dsimp only at hnext ⊢
        simp only [requested_append, earned_append]
        omega
      | panicked text =>
        obtain ⟨hpaid', length, hmem, hlarge⟩ := hnext
        refine ⟨?_, length, ?_, hlarge⟩
        · simp only [requested_append, earned_append]
          omega
        · rw [declared_append]
          exact List.mem_append_right _ hmem
      | unended => exact hnext
    | ok result =>
      rw [hsecond] at hnext
      obtain ⟨left', hpaid', hpost⟩ := hnext
      refine ⟨left', ?_, hpost⟩
      simp only [requested_append, earned_append]
      omega

/-- The rule of consequence. -/
theorem Pays.weaken {post' : α → Stream → Nat → Prop} (h : Pays rate credit x stream post)
    (weaker : ∀ a rest left, post a rest left → ∃ left' ≤ left, post' a rest left') :
    Pays rate credit x stream post' := by
  unfold Pays at h ⊢
  split at h
  · obtain ⟨left, hpaid, hpost⟩ := h
    obtain ⟨left', hle, hpost'⟩ := weaker _ _ _ hpost
    exact ⟨left', by omega, hpost'⟩
  · exact h
  · exact h
  · exact h

/-- What a reader returns has its postcondition. -/
theorem Pays.returned {a : α} {rest : Stream} (h : Pays rate credit x stream post)
    (hvalue : (x stream).value = .ok (a, rest)) : ∃ left, post a rest left := by
  unfold Pays at h
  rw [hvalue] at h
  obtain ⟨left, -, hpost⟩ := h
  exact ⟨left, hpost⟩

/-- Every byte read is credited. -/
theorem Pays.readExact (count : Nat) :
    Pays rate credit (Reading.readExact count) stream fun bytes rest left =>
      left = credit + rate * count ∧ bytes.length = count ∧
        rest.bytes.length + count = stream.bytes.length := by
  unfold Pays Reading.readExact
  by_cases h : count ≤ stream.bytes.length
  · simp only [if_pos h]
    refine ⟨credit + rate * count, ?_, rfl, ?_, ?_⟩
    · simp [earned]
    · simp [h]
    · simp only [List.length_drop]
      omega
  · simp only [if_neg h]
    simp

/-- Reading to the end asks for no buffer. -/
theorem Pays.readToEnd :
    Pays rate credit Reading.readToEnd stream fun _ _ _ => True := by
  unfold Pays Reading.readToEnd
  cases stream.ending with
  | some e => simp
  | none => exact ⟨0, by simp, trivial⟩

/-- An end of the stream is caught, with no credit left. -/
theorem Pays.orEof {post : Option α → Stream → Nat → Prop}
    (h : Pays rate credit x stream fun a rest left => post (some a) rest left)
    (eof : post none { stream with bytes := [] } 0) :
    Pays rate credit (Reading.orEof x) stream post := by
  unfold Pays at h ⊢
  unfold Reading.orEof
  cases hvalue : (x stream).value with
  | ok result =>
    rw [hvalue] at h
    exact h
  | error e =>
    rw [hvalue] at h
    cases e with
    | io e =>
      by_cases hkind : e.kind = .unexpectedEof
      · simp only [if_pos hkind]
        exact ⟨0, by simpa using h, eof⟩
      · simp only [if_neg hkind]
        exact h
    | panicked text => exact h
    | unended => exact h

theorem Pays.withBytesLeft {f : Nat → Reading α}
    (h : Pays rate credit (f stream.bytes.length) stream post) :
    Pays rate credit (Reading.withBytesLeft f) stream post := h

/-- A buffer is taken out of the credit. -/
theorem Pays.allocate {size : Nat} (small : size ≤ maxBuffer) (covered : size ≤ credit) :
    Pays rate credit (Reading.allocate size) stream fun _ rest left =>
      left = credit - size ∧ rest = stream := by
  unfold Pays Reading.allocate
  simp only [if_pos small]
  refine ⟨credit - size, ?_, rfl, trivial⟩
  simp only [requested_requested, requested_nil]
  omega

/-- A declared length covers its own buffer. -/
theorem Pays.reserve {length : Nat} :
    Pays rate credit (Reading.reserve length) stream fun _ rest left =>
      left = credit ∧ rest = stream := by
  unfold Pays Reading.reserve
  by_cases small : length ≤ maxBuffer
  · simp only [if_pos small]
    refine ⟨credit, ?_, rfl, trivial⟩
    simp [earned]
    omega
  · simp only [if_neg small]
    refine ⟨?_, length, by simp, by omega⟩
    simp [earned]

end Rules

/-! ## Declared lengths -/

section Declared

variable {α β : Type} {stream : Stream}

/-- The reader declares nothing. -/
def Quiet (x : Reading α) : Prop := ∀ stream, declared (x stream).events = []

/-- What declares no length: returning, failing, reading and asking for a buffer. -/
theorem Quiet.pure (a : α) : Quiet (pure a : Reading α) := fun _ => rfl

theorem Quiet.fail (failure : ReadFailure) :
    Quiet (Reading.fail failure : Reading α) := fun _ => rfl

theorem Quiet.lift (x : Except IoError α) : Quiet (Reading.lift x) := by
  cases x with
  | error e => exact Quiet.fail _
  | ok a => exact Quiet.pure a

theorem Quiet.readExact (count : Nat) : Quiet (Reading.readExact count) := by
  intro stream
  unfold Reading.readExact
  split <;> rfl

theorem Quiet.readToEnd : Quiet Reading.readToEnd := by
  intro stream
  unfold Reading.readToEnd
  split <;> rfl

theorem Quiet.allocate (size : Nat) : Quiet (Reading.allocate size) := fun _ => rfl

theorem Quiet.withBytesLeft {f : Nat → Reading α} (hf : ∀ count, Quiet (f count)) :
    Quiet (Reading.withBytesLeft f) := fun stream => hf _ stream

variable {x : Reading α} {f : α → Reading β}

theorem Quiet.orEof (hx : Quiet x) : Quiet (Reading.orEof x) := by
  intro stream
  unfold Reading.orEof
  split
  · exact hx stream
  · split <;> exact hx stream
  · exact hx stream

/-- What a sequence declares. -/
theorem declared_bind (x : Reading α) (f : α → Reading β) (stream : Stream) :
    declared ((x >>= f) stream).events = declared (x stream).events ++
      match (x stream).value with
      | .error _ => []
      | .ok (a, rest) => declared (f a rest).events := by
  show declared (match (x stream).value with
    | .error e => (⟨(x stream).events, .error e⟩ : Ran (β × Stream))
    | .ok (a, rest) => ⟨(x stream).events ++ (f a rest).events, (f a rest).value⟩).events = _
  cases (x stream).value with
  | error e => exact (List.append_nil _).symm
  | ok result => exact declared_append _ _

/-- Before quiet readers only the first one declares. -/
theorem declared_bind_quiet (hf : ∀ a, Quiet (f a)) :
    declared ((x >>= f) stream).events = declared (x stream).events := by
  rw [declared_bind]
  cases (x stream).value with
  | error e => exact List.append_nil _
  | ok result =>
    dsimp only
    rw [hf, List.append_nil]

/-- Quiet readers in a row. -/
theorem Quiet.bind (hx : Quiet x) (hf : ∀ a, Quiet (f a)) : Quiet (x >>= f) := by
  intro stream
  rw [declared_bind_quiet hf]
  exact hx stream

/-- A run asks for the buffer of each declared length right away, and panics if it is too large. -/
structure Marks (ran : Ran β) : Prop where
  reserved : ∀ length ∈ declared ran.events, ∃ before after,
    ran.events = before ++ .declared length :: .requested length :: after
  panicked : ∀ length ∈ declared ran.events, maxBuffer < length →
    ∃ text, ran.value = .error (.panicked text)

/-- A quiet reader has nothing to mark. -/
theorem Marks.of_quiet (hx : Quiet x) : Marks (x stream) where
  reserved length h := by
    rw [hx stream] at h
    cases h
  panicked length h := by
    rw [hx stream] at h
    cases h

/-- A buffer of a declared length is marked. -/
theorem Marks.reserve (length : Nat) : Marks (Reading.reserve length stream) where
  reserved length' h := by
    obtain rfl : length' = length := by simpa [Reading.reserve] using h
    exact ⟨[], [], rfl⟩
  panicked length' h large := by
    obtain rfl : length' = length := by simpa [Reading.reserve] using h
    exact ⟨_, if_neg (by omega)⟩

/-- Readers in a row that mark. -/
theorem Marks.bind (hx : Marks (x stream))
    (hf : ∀ a rest, (x stream).value = .ok (a, rest) → Marks (f a rest)) :
    Marks ((x >>= f) stream) := by
  have hrun : (x >>= f) stream = match (x stream).value with
    | .error e => ⟨(x stream).events, .error e⟩
    | .ok (a, rest) => ⟨(x stream).events ++ (f a rest).events, (f a rest).value⟩ := rfl
  rw [hrun]
  cases hvalue : (x stream).value with
  | error e =>
    refine ⟨hx.reserved, fun length hmem large => ?_⟩
    obtain ⟨text, htext⟩ := hx.panicked length hmem large
    cases hvalue.symm.trans htext
    exact ⟨text, rfl⟩
  | ok result =>
    obtain ⟨a, rest⟩ := result
    have hnext := hf a rest hvalue
    constructor
    · intro length hmem
      dsimp only at hmem ⊢
      rw [declared_append] at hmem
      rcases List.mem_append.mp hmem with hmem | hmem
      · obtain ⟨before, after, hevents⟩ := hx.reserved length hmem
        exact ⟨before, after ++ (f a rest).events, by simp [hevents]⟩
      · obtain ⟨before, after, hevents⟩ := hnext.reserved length hmem
        exact ⟨(x stream).events ++ before, after, by simp [hevents]⟩
    · intro length hmem large
      dsimp only at hmem ⊢
      rw [declared_append] at hmem
      rcases List.mem_append.mp hmem with hmem | hmem
      · obtain ⟨text, htext⟩ := hx.panicked length hmem large
        cases hvalue.symm.trans htext
      · exact hnext.panicked length hmem large

end Declared

/-! ## Exact consumption -/

section Consumption

variable {α β : Type}

/-- From every stream that starts with `bytes` the reader returns `a` and leaves the rest. -/
def Consumes (x : Reading α) (bytes : List Byte) (a : α) : Prop :=
  ∀ rest ending, (x ⟨bytes ++ rest, ending⟩).value = .ok (a, ⟨rest, ending⟩)

theorem Consumes.pure (a : α) : Consumes (pure a) [] a := fun _ _ => rfl

variable {a : α} {x : Reading α} {f : α → Reading β} {b : β} {bytes : List Byte}

theorem Consumes.lift {x : Except IoError α} (hx : x = .ok a) : Consumes (Reading.lift x) [] a := by
  subst hx
  exact Consumes.pure a

/-- The value of a sequence is that of its second part. -/
theorem value_bind {stream rest : Stream} (hx : (x stream).value = .ok (a, rest)) :
    ((x >>= f) stream).value = (f a rest).value := by
  have hrun : (x >>= f) stream = match (x stream).value with
    | .error e => ⟨(x stream).events, .error e⟩
    | .ok (a, rest) => ⟨(x stream).events ++ (f a rest).events, (f a rest).value⟩ := rfl
  rw [hrun, hx]

/-- Sequencing: the second reader starts where the first one stopped. -/
theorem Consumes.bind {front back : List Byte} (hx : Consumes x front a)
    (hf : Consumes (f a) back b) : Consumes (x >>= f) (front ++ back) b := by
  intro rest ending
  have hfront := hx (back ++ rest) ending
  rw [← List.append_assoc] at hfront
  rw [value_bind hfront, hf rest ending]

/-- A first reader that takes nothing. -/
theorem Consumes.skip (hx : Consumes x [] a) (hf : Consumes (f a) bytes b) :
    Consumes (x >>= f) bytes b :=
  hx.bind hf

/-- A second reader that takes nothing. -/
theorem Consumes.last (hx : Consumes x bytes a) (hf : Consumes (f a) [] b) :
    Consumes (x >>= f) bytes b := by
  have h := hx.bind hf
  rwa [List.append_nil] at h

/-- An exact read takes its bytes. -/
theorem Consumes.readExact {count : Nat} (hlen : bytes.length = count) :
    Consumes (Reading.readExact count) bytes bytes := by
  subst hlen
  intro rest ending
  unfold Reading.readExact
  rw [if_pos (by simp)]
  simp

theorem Consumes.allocate {size : Nat} (small : size ≤ maxBuffer) :
    Consumes (Reading.allocate size) [] () := by
  intro rest ending
  unfold Reading.allocate
  rw [if_pos small]
  rfl

theorem Consumes.reserve {length : Nat} (small : length ≤ maxBuffer) :
    Consumes (Reading.reserve length) [] () := by
  intro rest ending
  unfold Reading.reserve
  rw [if_pos small]
  rfl

/-- What is there is not the end. -/
theorem Consumes.orEof (hx : Consumes x bytes a) : Consumes (Reading.orEof x) bytes (some a) := by
  intro rest ending
  unfold Reading.orEof
  rw [hx rest ending]

/-- The bound of a loop counts the bytes that are read at least. -/
theorem Consumes.withBytesLeft {f : Nat → Reading α}
    (hf : ∀ count, bytes.length ≤ count → Consumes (f count) bytes a) :
    Consumes (Reading.withBytesLeft f) bytes a := by
  intro rest ending
  exact hf _ (by simp) rest ending

end Consumption

end Streams
