import NMesh.Base.BigEndian
import NMesh.Base.Serial
import Mathlib.Data.Rat.Defs

/-! # Frames of the UDP transport

A frame is the magic `NUDP`, a header `seq, ack, sack, flags, payload_len` and the payload; the
length field is the payload's length, so the model keeps the payload only. Sequence numbers are
32-bit: `mask32 z` is `z & 0xFFFFFFFF`. -/

namespace NMesh.Udp.Wire

open Base.BigEndian Base.Serial

def magic : Bytes := [0x4E, 0x55, 0x44, 0x50]

/-- The length of the header `!IIIBH`. -/
def frameSize : ℕ := 15

def flagAckOnly : ℕ := 0x01
def flagKeepalive : ℕ := 0x02
def flagData : ℕ := 0x04
def flagFin : ℕ := 0x08
def flagMore : ℕ := 0x10
def flagSegments : ℕ := 0x20

def maxPayload : ℕ := 60000
def maxUnacked : ℕ := 256
def maxReorderBytes : ℕ := 2 * 1024 * 1024

/-- The length of a mesh packet's header, `HEADER_SIZE`. -/
def headerSize : ℕ := 79

def rtoFloorDefault : ℚ := 1 / 5
def rtoInitial : ℚ := 1 / 5
def rtoMax : ℚ := 2
def cwndInitial : ℚ := 64 * 1024
def cwndMin : ℚ := 32 * 1024
def cwndMax : ℚ := 8 * 1024 * 1024
def cwndStep : ℚ := 16 * 1024
def dupThreshold : ℕ := 3
def rtxCheck : ℚ := 1 / 50

/-- `2 ^ 32`, the number of sequence numbers. -/
abbrev word : ℕ := 4294967296

/-- `z & 0xFFFFFFFF`. -/
abbrev mask32 (z : ℤ) : ℕ := mask word z

/-- The 32-bit sequence number of the `n`-th number of a link born at `init`. -/
abbrev seq32 (init n : ℕ) : ℕ := seqOf word init n

theorem mask32_lt (z : ℤ) : mask32 z < 4294967296 := mask_lt (by decide) z

theorem seq32_lt (init n : ℕ) : seq32 init n < 4294967296 := mask32_lt _

theorem seq32_zero {init : ℕ} (h : init < 4294967296) : seq32 init 0 = init := seqOf_zero h

theorem seq32_add (init n i : ℕ) : mask32 (seq32 init n + i) = seq32 init (n + i) :=
  seqOf_add (by decide) init n i

theorem seq32_succ (init n : ℕ) : mask32 (seq32 init n + 1) = seq32 init (n + 1) :=
  seq32_add init n 1

theorem seq32_add_word (init n : ℕ) : seq32 init (n + 4294967296) = seq32 init n :=
  seqOf_add_self init n

theorem dist32_of_le (init : ℕ) {m n : ℕ} (h : n ≤ m) (hlt : m < n + 4294967296) :
    mask32 (seq32 init m - seq32 init n) = m - n := dist_of_le (by decide) init h hlt

theorem dist32_of_lt (init : ℕ) {m n : ℕ} (h : m < n) (hle : n ≤ m + 4294967296) :
    mask32 (seq32 init m - seq32 init n) = 4294967296 - (n - m) :=
  dist_of_lt (by decide) init h hle

theorem seq32_inj {init m n : ℕ} (h : seq32 init m = seq32 init n) (h1 : m < n + 4294967296)
    (h2 : n < m + 4294967296) : m = n := seqOf_inj (by decide) h h1 h2

structure Frame where
  seq : ℕ
  ack : ℕ
  sack : ℕ
  flags : ℕ
  payload : Bytes
  deriving DecidableEq

namespace Frame

def len (f : Frame) : ℕ := magic.length + frameSize + f.payload.length

def has (f : Frame) (bits : ℕ) : Bool := f.flags &&& bits != 0

/-- What a data frame hands to reassembly: its payload, and whether the packet goes on. -/
def piece (f : Frame) : Bytes × Bool := (f.payload, f.has flagMore)

end Frame

end NMesh.Udp.Wire
