import Neptools.Lib.Except
import Neptools.Utils

/-!
The part of a sink that every implementation shares: the inline fast paths of
`Write` and `Pad`, which fill the buffer and hand what is left to the virtual
`Write_` and `Pad_`. File positions and sizes are natural numbers; a call is
only made when everything written so far fits the 64-bit size of the sink.
-/

namespace Neptools

open Lib

/-- What the inline functions read and update of a sink, and its virtual
functions. `store` copies into the buffer at `buf_put` and advances `buf_put`. -/
class Sink (σ : Type) where
  offset : σ → Nat
  size : σ → Nat
  bufPut : σ → Nat
  bufSize : σ → Nat
  store : σ → Bytes → Except Error σ
  write_ : σ → Bytes → Except Error σ
  pad_ : σ → Nat → Except Error σ
  flush : σ → Except Error σ

namespace Sink

variable {σ : Type} [Sink σ]

def tell (s : σ) : Nat := offset s + bufPut s

def write (s : σ) (data : Bytes) : Except Error σ := do
  require (offset s + bufPut s + data.length ≤ size s)
    (Error.sinkOverflow "Sink overflow during write")
  let cp := min data.length (bufSize s - bufPut s)
  let s ← store s (data.take cp)
  let data := data.drop cp
  if data ≠ [] then write_ s data else pure s

def pad (s : σ) (len : Nat) : Except Error σ := do
  require (offset s + bufPut s + len ≤ size s)
    (Error.sinkOverflow "Sink overflow during pad")
  let cp := min len (bufSize s - bufPut s)
  let s ← store s (zeros cp)
  let len := len - cp
  if len ≠ 0 then pad_ s len else pure s

/-- The calls a client makes on a sink. -/
inductive Call
  | write (data : Bytes)
  | pad (len : Nat)
  | flush
  deriving Repr, DecidableEq

/-- The bytes a call stands for. -/
def Call.bytes : Call → Bytes
  | .write data => data
  | .pad len => zeros len
  | .flush => []

def Call.length (c : Call) : Nat := c.bytes.length

def step (s : σ) : Call → Except Error σ
  | .write data => write s data
  | .pad len => pad s len
  | .flush => flush s

/-- The concatenation of all written data and of all pads as zero bytes. -/
def bytesOf (calls : List Call) : Bytes := calls.flatMap Call.bytes

@[simp] theorem bytesOf_nil : bytesOf [] = [] := rfl

@[simp] theorem bytesOf_cons (c : Call) (calls : List Call) :
    bytesOf (c :: calls) = c.bytes ++ bytesOf calls := List.flatMap_cons

@[simp] theorem bytesOf_append (calls calls' : List Call) :
    bytesOf (calls ++ calls') = bytesOf calls ++ bytesOf calls' := List.flatMap_append

@[simp] theorem Call.bytes_write (data : Bytes) : (Call.write data).bytes = data := rfl

@[simp] theorem Call.bytes_pad (len : Nat) : (Call.pad len).bytes = zeros len := rfl

def totalLength (calls : List Call) : Nat := (bytesOf calls).length

theorem foldl_append_bytes (calls : List Call) (out : Bytes) :
    calls.foldl (fun out c => out ++ c.bytes) out = out ++ bytesOf calls := by
  induction calls generalizing out with
  | nil => simp [bytesOf]
  | cons c calls ih => simp [ih, bytesOf, List.append_assoc]

/-- A call may be made on a sink of the given size when what was written and
what the calls to come stand for fit in it. -/
def Fits (size : Nat) (out : Bytes) (calls : List Call) : Prop :=
  out.length + totalLength calls ≤ size

theorem Fits.tail {size : Nat} {out : Bytes} {c : Call} {calls : List Call}
    (h : Fits size out (c :: calls)) : Fits size (out ++ c.bytes) calls := by
  simp only [Fits, totalLength, bytesOf, List.flatMap_cons, List.length_append] at *
  omega

theorem Fits.head {size : Nat} {out : Bytes} {c : Call} {calls : List Call}
    (h : Fits size out (c :: calls)) : out.length + c.length ≤ size := by
  simp only [Fits, totalLength, bytesOf, List.flatMap_cons, List.length_append,
    Call.length] at *
  omega

end Sink

end Neptools
