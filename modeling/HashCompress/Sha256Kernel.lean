import HashCompress.Sha256Spec

/-!
# The eBPF SHA-256 of `xdp_prog_kern_02.c`

The hash context and the scratch area live in two per-CPU array maps and keep their contents
from packet to packet. The scratch map value is 384 raw bytes: `compute_keyed_hash` sees its
first 128 bytes as `buffer`, while `sha256_transform` sees the schedule `m` at offset 0.
-/
namespace HashCompress.Sha256Kernel
open Sha256Spec (Chain)

def rotright (a b : UInt32) : UInt32 := (a >>> b) ||| (a <<< (32 - b))

def ch (x y z : UInt32) : UInt32 := (x &&& y) ^^^ (~~~x &&& z)

def maj (x y z : UInt32) : UInt32 := (x &&& y) ^^^ (x &&& z) ^^^ (y &&& z)

def ep0 (x : UInt32) : UInt32 := rotright x 2 ^^^ rotright x 13 ^^^ rotright x 22

def ep1 (x : UInt32) : UInt32 := rotright x 6 ^^^ rotright x 11 ^^^ rotright x 25

def sig0 (x : UInt32) : UInt32 := rotright x 7 ^^^ rotright x 18 ^^^ (x >>> 3)

def sig1 (x : UInt32) : UInt32 := rotright x 17 ^^^ rotright x 19 ^^^ (x >>> 10)

def k : List UInt32 := [
  0x428a2f98, 0x71374491, 0xb5c0fbcf, 0xe9b5dba5, 0x3956c25b, 0x59f111f1, 0x923f82a4, 0xab1c5ed5,
  0xd807aa98, 0x12835b01, 0x243185be, 0x550c7dc3, 0x72be5d74, 0x80deb1fe, 0x9bdc06a7, 0xc19bf174,
  0xe49b69c1, 0xefbe4786, 0x0fc19dc6, 0x240ca1cc, 0x2de92c6f, 0x4a7484aa, 0x5cb0a9dc, 0x76f988da,
  0x983e5152, 0xa831c66d, 0xb00327c8, 0xbf597fc7, 0xc6e00bf3, 0xd5a79147, 0x06ca6351, 0x14292967,
  0x27b70a85, 0x2e1b2138, 0x4d2c6dfc, 0x53380d13, 0x650a7354, 0x766a0abb, 0x81c2c92e, 0x92722c85,
  0xa2bfe8a1, 0xa81a664b, 0xc24b8b70, 0xc76c51a3, 0xd192e819, 0xd6990624, 0xf40e3585, 0x106aa070,
  0x19a4c116, 0x1e376c08, 0x2748774c, 0x34b0bcb5, 0x391c0cb3, 0x4ed8aa4a, 0x5b9cca4f, 0x682e6ff3,
  0x748f82ee, 0x78a5636f, 0x84c87814, 0x8cc70208, 0x90befffa, 0xa4506ceb, 0xbef9a3f7, 0xc67178f2]

/-- `SHA256_CTX`, the value of `sha256_ctx_map`. -/
structure Sha256Ctx where
  data : Vector UInt8 64
  datalen : UInt32
  bitlen : UInt64
  state : Vector UInt32 8
  deriving DecidableEq

/-- The value of `sha256_temp_map` as raw bytes. -/
abbrev Scratch := Vector UInt8 384

/-- What the two maps hold for the current CPU. -/
structure Maps where
  ctx : Sha256Ctx
  temp : Scratch
  deriving DecidableEq

/-- Whether `bpf_map_lookup_elem` finds the element of each map. -/
structure Lookups where
  ctx : Bool
  temp : Bool

def Lookups.ok : Lookups := ⟨true, true⟩

@[simp] theorem Lookups.ok_ctx : Lookups.ok.ctx = true := rfl

@[simp] theorem Lookups.ok_temp : Lookups.ok.temp = true := rfl

/-- Schedule word `m[i]`: four bytes at offset `4 * i`, in the little-endian order of the host. -/
def getM (t : Scratch) (i : ℕ) : UInt32 :=
  UInt32.ofNat (t[4 * i]?.getD 0).toNat + UInt32.ofNat ((t[4 * i + 1]?.getD 0).toNat * 256) +
    UInt32.ofNat ((t[4 * i + 2]?.getD 0).toNat * 65536) +
    UInt32.ofNat ((t[4 * i + 3]?.getD 0).toNat * 16777216)

def setM (t : Scratch) (i : ℕ) (w : UInt32) : Scratch :=
  (((t.setIfInBounds (4 * i) (UInt8.ofNat w.toNat)).setIfInBounds (4 * i + 1)
    (UInt8.ofNat (w.toNat / 256))).setIfInBounds (4 * i + 2)
    (UInt8.ofNat (w.toNat / 65536))).setIfInBounds (4 * i + 3) (UInt8.ofNat (w.toNat / 16777216))

/-- The big-endian word at `data[j]`, as the first schedule loop assembles it. -/
def dataWord (data : Vector UInt8 64) (j : ℕ) : UInt32 :=
  ((data[j]?.getD 0).toUInt32 <<< 24) ||| ((data[j + 1]?.getD 0).toUInt32 <<< 16) |||
    ((data[j + 2]?.getD 0).toUInt32 <<< 8) ||| (data[j + 3]?.getD 0).toUInt32

def copyBlock (data : Vector UInt8 64) (t : Scratch) : Scratch :=
  (List.range 16).foldl (fun t i => setM t i (dataWord data (i * 4))) t

def extendStep (t : Scratch) (i : ℕ) : Scratch :=
  setM t i (sig1 (getM t (i - 2)) + getM t (i - 7) + sig0 (getM t (i - 15)) + getM t (i - 16))

def extendSchedule (t : Scratch) : Scratch := (List.range' 16 48).foldl extendStep t

def compressionStep (t : Scratch) (v : Chain) (i : ℕ) : Chain :=
  let t1 := v.h + ep1 v.e + ch v.e v.f v.g + k.getD i 0 + getM t i
  let t2 := ep0 v.a + maj v.a v.b v.c
  ⟨t1 + t2, v.a, v.b, v.c, v.d + t1, v.e, v.f, v.g⟩

/-- The eight words of `ctx->state` read into the working variables. -/
def loadState (s : Vector UInt32 8) : Chain := ⟨s[0], s[1], s[2], s[3], s[4], s[5], s[6], s[7]⟩

def addState (s : Vector UInt32 8) (v : Chain) : Vector UInt32 8 :=
  #v[s[0] + v.a, s[1] + v.b, s[2] + v.c, s[3] + v.d, s[4] + v.e, s[5] + v.f, s[6] + v.g,
    s[7] + v.h]

/-- The guards of the source's loops that only satisfy the eBPF verifier are constantly false
in the ranges the loops run over and have no counterpart here. -/
def sha256Transform (lk : Lookups) (data : Vector UInt8 64) (m : Maps) : ℤ × Maps :=
  if lk.ctx = false then (-1, m)
  else if lk.temp = false then (-1, m)
  else
    let t := extendSchedule (copyBlock data m.temp)
    let v := (List.range 64).foldl (compressionStep t) (loadState m.ctx.state)
    (0, ⟨{ m.ctx with state := addState m.ctx.state v }, t⟩)

def sha256Init (lk : Lookups) (m : Maps) : ℤ × Maps :=
  if lk.ctx = false then (-1, m)
  else
    (0, { m with ctx := { m.ctx with
      datalen := 0
      bitlen := 0
      state := #v[0x6a09e667, 0xbb67ae85, 0x3c6ef372, 0xa54ff53a, 0x510e527f, 0x9b05688c,
        0x1f83d9ab, 0x5be0cd19] } })

/-- Where the `data` argument of `sha256_update` points: outside both maps, or into the
scratch map value, whose bytes may change while they are being read. -/
inductive Source where
  | memory (bytes : List UInt8)
  | scratch (offset : ℕ)

def Source.read (m : Maps) : Source → ℕ → UInt8
  | .memory bytes, i => bytes.getD i 0
  | .scratch offset, i => m.temp[offset + i]?.getD 0

/-- The loop body of `sha256_update` for one input byte. -/
def updateByte (lk : Lookups) (m : Maps) (b : UInt8) : Maps :=
  let m := { m with ctx := { m.ctx with
    data := m.ctx.data.setIfInBounds m.ctx.datalen.toNat b
    datalen := m.ctx.datalen + 1 } }
  if m.ctx.datalen = 64 then
    let m := (sha256Transform lk m.ctx.data m).2
    { m with ctx := { m.ctx with bitlen := m.ctx.bitlen + 512, datalen := 0 } }
  else m

/-- `n` more iterations of the loop, from index `i` on. -/
def updateLoop (lk : Lookups) (src : Source) : ℕ → ℕ → Maps → Maps
  | 0, _, m => m
  | n + 1, i, m =>
      if 64 ≤ m.ctx.datalen then m
      else updateLoop lk src n (i + 1) (updateByte lk m (src.read m i))

/-- For lengths below `2^32`, where the 32-bit loop counter reaches `len`. -/
def sha256Update (lk : Lookups) (src : Source) (len : ℕ) (m : Maps) : ℤ × Maps :=
  if lk.ctx = false then (-1, m) else (0, updateLoop lk src len 0 m)

/-- `data[i] = 0x00` for every `i` from `start` up to `stop`. -/
def zeroFill (data : Vector UInt8 64) (start stop : ℕ) : Vector UInt8 64 :=
  (List.range (stop - start)).foldl (fun d i => d.setIfInBounds (start + i) 0) data

/-- The two padding branches of `sha256_final`. -/
def padBlock (lk : Lookups) (m : Maps) : Maps :=
  let i := if 64 ≤ m.ctx.datalen then 0 else m.ctx.datalen.toNat
  let marked := m.ctx.data.setIfInBounds i 0x80
  if m.ctx.datalen < 56 then
    { m with ctx := { m.ctx with data := zeroFill marked (i + 1) 56 } }
  else
    let data := zeroFill marked (i + 1) 64
    let m := (sha256Transform lk data { m with ctx := { m.ctx with data := data } }).2
    { m with ctx := { m.ctx with data := zeroFill m.ctx.data 0 56 } }

/-- The message length in bits, most significant byte first, in the last eight bytes. -/
def putLength (data : Vector UInt8 64) (bitlen : UInt64) : Vector UInt8 64 :=
  (List.range 8).foldl (fun d i =>
    d.setIfInBounds (56 + i) (bitlen >>> UInt64.ofNat (56 - 8 * i)).toUInt8) data

/-- The final copy loop: byte `i` of every state word, for `i` from 0 to 3. -/
def putDigest (state : Vector UInt32 8) (hash : Vector UInt8 32) : Vector UInt8 32 :=
  (List.range 4).foldl (fun hash i =>
    (List.range 8).foldl (fun hash j =>
      hash.setIfInBounds (i + 4 * j)
        (((state[j]?.getD 0) >>> UInt32.ofNat (24 - i * 8)) &&& 0x000000ff).toUInt8) hash) hash

/-- `hash` is the caller's array, left alone when the context lookup fails. -/
def sha256Final (lk : Lookups) (hash : Vector UInt8 32) (m : Maps) : ℤ × Vector UInt8 32 × Maps :=
  if lk.ctx = false then (-1, hash, m)
  else
    let m := padBlock lk m
    let bitlen := m.ctx.bitlen + (m.ctx.datalen * 8).toUInt64
    let data := putLength m.ctx.data bitlen
    let m := (sha256Transform lk data
      { m with ctx := { m.ctx with data := data, bitlen := bitlen } }).2
    (0, putDigest m.ctx.state hash, m)

/-- `sha256_init`, one `sha256_update` for each chunk, then `sha256_final`. -/
def hashChunks (lk : Lookups) (chunks : List (List UInt8)) (hash : Vector UInt8 32) (m : Maps) :
    ℤ × Vector UInt8 32 × Maps :=
  sha256Final lk hash (chunks.foldl (fun m c => (sha256Update lk (.memory c) c.length m).2)
    (sha256Init lk m).2)

/-- Freshly created maps: the kernel zeroes array maps. -/
def Maps.zero : Maps :=
  ⟨⟨Vector.replicate 64 0, 0, 0, Vector.replicate 8 0⟩, Vector.replicate 384 0⟩

/-- The hash function that the kernel program's three functions compute on a whole message. -/
def kernelSha256 (message : List UInt8) : List UInt8 :=
  (hashChunks .ok [message] (Vector.replicate 32 0) .zero).2.1.toList

end HashCompress.Sha256Kernel
