import Neptools.Source

/-!
How reading from a source fails: with an exception, or behind the last byte. Whatever else
can go wrong with a file has to do with its items.
-/

namespace Neptools

open Lib

def Error.OfSource : Error → Prop
  | .decodeError _ | .sourceOverflow _ => True
  | .assertionFailed cond => cond = "offs < size"
  | _ => False

/-- The computation fails like a read, if it fails. -/
def FailsLikeReads {α : Type} (x : Except Error α) : Prop := ¬ Overran Error.OfSource x

namespace FailsLikeReads

variable {α β : Type}

theorem ok (a : α) : FailsLikeReads (.ok a : Except Error α) := not_overran_ok a

theorem error {e : Error} (h : e.OfSource) : FailsLikeReads (.error e : Except Error α) :=
  fun hover => overran_error.mp hover h

theorem bind {x : Except Error α} {f : α → Except Error β} (hx : FailsLikeReads x)
    (hf : ∀ a, FailsLikeReads (f a)) : FailsLikeReads (x >>= f) :=
  not_overran_bind hx fun a _ => hf a

theorem require {p : Prop} [Decidable p] {e : Error} (h : e.OfSource) :
    FailsLikeReads (Lib.require p e) := by
  rw [Lib.require]
  split
  · exact ok ()
  · exact error h

theorem validateField (what cond : String) (p : Prop) [Decidable p] :
    FailsLikeReads (Neptools.validateField what cond p) := require trivial

end FailsLikeReads

namespace Source

variable (α : Type) [Pod α] (s : Source)

theorem failsLikeReads_slice (offset size : Nat) : FailsLikeReads (s.slice offset size) := by
  rw [slice]
  split
  · exact .ok _
  · exact .error trivial

theorem failsLikeReads_sub (offset size : Nat) : FailsLikeReads (s.sub offset size) :=
  (s.failsLikeReads_slice offset size).bind fun _ => .ok _

theorem failsLikeReads_seek (pos : Nat) : FailsLikeReads (s.seek pos) :=
  .bind (.require trivial) fun _ => .ok _

theorem failsLikeReads_checkSize (size : Nat) : FailsLikeReads (s.checkSize size) :=
  .require trivial

theorem failsLikeReads_pread (offs len : Nat) : FailsLikeReads (s.pread offs len) := by
  rw [pread]
  split
  · exact .ok _
  · exact .error trivial

theorem failsLikeReads_read (len : Nat) : FailsLikeReads (s.read len) :=
  (s.failsLikeReads_pread _ len).bind fun _ => .ok _

theorem failsLikeReads_preadGen (offs : Nat) : FailsLikeReads (s.preadGen α offs) :=
  (s.failsLikeReads_pread offs _).bind fun _ => .ok _

theorem failsLikeReads_readGen : FailsLikeReads (s.readGen α) :=
  (s.failsLikeReads_read _).bind fun _ => .ok _

theorem failsLikeReads_readUint [EndianReverse α] (e : Endian) : FailsLikeReads (s.readUint α e) :=
  (s.failsLikeReads_readGen α).bind fun _ => .ok _

theorem failsLikeReads_preadCString (offs : Nat) : FailsLikeReads (s.preadCString offs) := by
  rw [preadCString]
  split
  · exact .ok _
  · exact .error rfl

end Source

end Neptools
