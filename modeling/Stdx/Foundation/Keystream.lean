import Stdx.Foundation.Octets
import Stdx.Foundation.Chunks

/-!
# Additive streams

A stream cipher adds the octets of an infinite keystream to the message.  What is
added depends on the position in the stream only, so a message may be cut anywhere.
-/

namespace Stdx.Foundation

@[grind =]
def xorFrom (stream : Nat → UInt8) : Nat → Bytes → Bytes
  | _, [] => []
  | p, octet :: rest => (octet ^^^ stream p) :: xorFrom stream (p + 1) rest

@[simp] theorem xorFrom_nil (stream : Nat → UInt8) (p : Nat) :
    xorFrom stream p [] = [] := rfl

@[simp] theorem xorFrom_length (stream : Nat → UInt8) (p : Nat) (data : Bytes) :
    (xorFrom stream p data).length = data.length := by
  induction data generalizing p with
  | nil => rfl
  | cons octet rest ih => simp [xorFrom, ih]

theorem xorFrom_append (stream : Nat → UInt8) (p : Nat) (front back : Bytes) :
    xorFrom stream p (front ++ back) =
      xorFrom stream p front ++ xorFrom stream (p + front.length) back := by
  induction front generalizing p with
  | nil => rfl
  | cons octet rest ih =>
    rw [List.cons_append, xorFrom, ih, xorFrom, List.cons_append, List.length_cons,
      Nat.add_assoc, Nat.add_comm 1]

theorem xorFrom_xorFrom (stream : Nat → UInt8) (p : Nat) (data : Bytes) :
    xorFrom stream p (xorFrom stream p data) = data := by
  induction data generalizing p with
  | nil => rfl
  | cons octet rest ih =>
    simp only [xorFrom, ih, UInt8.xor_assoc, UInt8.xor_self, UInt8.xor_zero]

theorem zipWith_eq_xorFrom {stream : Nat → UInt8} {p : Nat} {data block : Bytes}
    (hlength : data.length ≤ block.length)
    (h : ∀ i, i < data.length → block.getD i 0 = stream (p + i)) :
    List.zipWith (· ^^^ ·) data block = xorFrom stream p data := by
  induction data generalizing p block with
  | nil => rfl
  | cons octet rest ih =>
    cases block with
    | nil => simp at hlength
    | cons key block =>
      have hhead : key = stream p := by simpa using h 0 (by simp)
      rw [List.zipWith_cons_cons, xorFrom, hhead]
      congr 1
      refine ih (by simpa using hlength) fun i hi => ?_
      have := h (i + 1) (by simpa using hi)
      rwa [List.getD_cons_succ, Nat.add_comm i 1, ← Nat.add_assoc] at this

end Stdx.Foundation
