import Aura.Lib.Bytes
import Aura.Ref.Chunk
import Aura.Ref.Lua

/-!
# Packing and unpacking (datahelpers.c)

A format string is parsed once, by `urpc_argcache`, into an array of function
pointers, one per field and a NULL at the end. Packing walks that array and
lets each packer write at the end of the chunk; a packer that finds too little
room says by a negative return how much it wanted, and the loop grows the
chunk and tries the field again. Unpacking walks the array over a pointer that
each unpacker moves on by what it returns.

A packer is modelled by its return value and the bytes it stores from `dest`
on. A pointer into a block is the rest of the block from there; no block is
larger than an `int` says, so an advance inside one is never cut off.
-/

namespace Aura.Ref

open Aura.Lib

/-! ## The packers

`sz` is tested before anything is written, and the four word packers are one
function at two widths: the bytes of the union are those of the host, taken
backwards when `swap` is set. A `double` outside the target's range has no
defined conversion; the model wraps. -/

/-- `urpc_pack_string`. The length is cut down to an `int`; `strcpy` copies
all of the string. -/
def urpcPackString (L : LuaState) (n : Nat) (destsz : Int) :
    Res (Int × List UInt8) :=
  match luaToString L n with
  | none => .error .nullDeref
  | some s =>
      let tsz := cInt (s.length + 1)
      if destsz < tsz then pure (-tsz, [])
      else pure (tsz, s ++ [0])

/-- The two byte packers: an `int` first, then its low byte. -/
def packByte (L : LuaState) (n : Nat) (destsz : Int) : Res (Int × List UInt8) :=
  if destsz < 1 then pure (-1, [])
  else
    let num := cInt (truncRat (luaToNumber L n))
    pure (1, [toByte num])

/-- The word packers, `k` bytes wide. -/
def packWord (k : Nat) (host : Endian) (L : LuaState) (n : Nat) (destsz : Int)
    (swap : Bool) : Res (Int × List UInt8) :=
  if destsz < k then pure (-k, [])
  else
    let number := (truncRat (luaToNumber L n) % 256 ^ k).toNat
    let bytes := host.encode k number
    pure (k, if swap then bytes.reverse else bytes)

def urpcPackU8 := packByte
def urpcPackS8 := packByte
def urpcPackU16 := packWord 2
def urpcPackS16 := packWord 2
def urpcPackU32 := packWord 4
def urpcPackS32 := packWord 4

/-! ## The unpackers -/

/-- `__swap16`, on the promoted `int`. -/
def swap16 (value : BitVec 32) : BitVec 32 :=
  (((value &&& 0x00FF#32).setWidth 16).setWidth 32 <<< 8) |||
    (((value &&& 0xFF00#32).setWidth 16).setWidth 32 >>> 8)

/-- `__swap32`. -/
def swap32 (value : BitVec 32) : BitVec 32 :=
  ((value &&& 0x000000FF#32) <<< 24) ||| ((value &&& 0x0000FF00#32) <<< 8) |||
    ((value &&& 0x00FF0000#32) >>> 8) ||| ((value &&& 0xFF000000#32) >>> 24)

/-- An unsigned `k`-byte read through a pointer. -/
def loadWord (k : Nat) (host : Endian) (src : List UInt8) : Res Nat :=
  if k ≤ src.length then .ok (host.decode (src.take k))
  else .error .outOfBounds

/-- `urpc_unpack_string`. -/
def urpcUnpackString (src : List UInt8) : Res (LuaValue × Nat) := do
  let s ← cstrAt src 0
  pure (.string s, s.length + 1)

/-- `urpc_unpack_u8`. -/
def urpcUnpackU8 (src : List UInt8) : Res (LuaValue × Nat) := do
  let b ← loadByte src 0
  pure (.number b.toNat, 1)

/-- `urpc_unpack_s8`; `char` is signed. -/
def urpcUnpackS8 (src : List UInt8) : Res (LuaValue × Nat) := do
  let b ← loadByte src 0
  pure (.number b.toBitVec.toInt, 1)

/-- `urpc_unpack_s16`. The return value is 1, whatever the width. -/
def urpcUnpackS16 (host : Endian) (src : List UInt8) (swap : Bool) :
    Res (LuaValue × Nat) := do
  let v := BitVec.ofNat 16 (← loadWord 2 host src)
  let tmp := if swap then (swap16 (v.signExtend 32)).setWidth 16 else v
  pure (.number tmp.toInt, 1)

/-- `urpc_unpack_u16`. -/
def urpcUnpackU16 (host : Endian) (src : List UInt8) (swap : Bool) :
    Res (LuaValue × Nat) := do
  let v := BitVec.ofNat 16 (← loadWord 2 host src)
  let tmp := if swap then (swap16 (v.setWidth 32)).setWidth 16 else v
  pure (.number tmp.toNat, 1)

/-- `urpc_unpack_s32`. -/
def urpcUnpackS32 (host : Endian) (src : List UInt8) (swap : Bool) :
    Res (LuaValue × Nat) := do
  let v := BitVec.ofNat 32 (← loadWord 4 host src)
  let tmp := if swap then swap32 v else v
  pure (.number tmp.toInt, 1)

/-- `urpc_unpack_u32`. -/
def urpcUnpackU32 (host : Endian) (src : List UInt8) (swap : Bool) :
    Res (LuaValue × Nat) := do
  let v := BitVec.ofNat 32 (← loadWord 4 host src)
  let tmp := if swap then swap32 v else v
  pure (.number tmp.toNat, 1)

/-! ## The cache

A cache entry is one of fourteen function pointers. Both loops call through
the pointer at the type they expect; a pointer of the other kind has no
meaning there. -/

/-- The tokens a format is made of. -/
inductive Token
  | string
  | s8
  | u8
  | s16
  | u16
  | s32
  | u32
  deriving DecidableEq, Repr

/-- A function pointer in a cache. -/
inductive CacheFn
  | pack (f : Token)
  | unpack (f : Token)
  deriving DecidableEq, Repr

/-- The packer of a token. -/
def Token.pack (f : Token) (host : Endian) (L : LuaState) (n : Nat)
    (destsz : Int) (swap : Bool) : Res (Int × List UInt8) :=
  match f with
  | .string => urpcPackString L n destsz
  | .s8 => urpcPackS8 L n destsz
  | .u8 => urpcPackU8 L n destsz
  | .s16 => urpcPackS16 host L n destsz swap
  | .u16 => urpcPackU16 host L n destsz swap
  | .s32 => urpcPackS32 host L n destsz swap
  | .u32 => urpcPackU32 host L n destsz swap

/-- The unpacker of a token. -/
def Token.unpack (f : Token) (host : Endian) (src : List UInt8)
    (swap : Bool) : Res (LuaValue × Nat) :=
  match f with
  | .string => urpcUnpackString src
  | .s8 => urpcUnpackS8 src
  | .u8 => urpcUnpackU8 src
  | .s16 => urpcUnpackS16 host src swap
  | .u16 => urpcUnpackU16 host src swap
  | .s32 => urpcUnpackS32 host src swap
  | .u32 => urpcUnpackU32 host src swap

def CacheFn.callPack (fn : CacheFn) (host : Endian) (L : LuaState) (n : Nat)
    (destsz : Int) (swap : Bool) : Res (Int × List UInt8) :=
  match fn with
  | .pack f => f.pack host L n destsz swap
  | .unpack _ => .error .badCall

def CacheFn.callUnpack (fn : CacheFn) (host : Endian) (src : List UInt8)
    (swap : Bool) : Res (LuaValue × Nat) :=
  match fn with
  | .pack _ => .error .badCall
  | .unpack f => f.unpack host src swap

/-! ## The format parser -/

/-- A character of a C string. -/
def chr (c : Char) : UInt8 := UInt8.ofNat c.toNat

/-- `strdlmcnt`. -/
def strdlmcnt (str : List UInt8) (d : UInt8) : Nat := str.count d

/-- The tokens `strtok` hands out, runs of delimiters counting as one. -/
def strtok (str : List UInt8) (d : UInt8) : List (List UInt8) :=
  (str.splitOn d).filter (· ≠ [])

def isSpace (b : UInt8) : Bool := b = 32 || (9 ≤ b && b ≤ 13)

def isDigit (b : UInt8) : Bool := 48 ≤ b && b ≤ 57

/-- The optional sign of a `%d` conversion. -/
def scanSign : List UInt8 → Bool × List UInt8
  | [] => (false, [])
  | b :: bs =>
      if b = chr '-' then (true, bs)
      else if b = chr '+' then (false, bs)
      else (false, b :: bs)

/-- The value of a run of digits, with the saturation of `strtol` and the
conversion to `int` that follows it. -/
def scanValue (neg : Bool) (digits : List UInt8) : Int :=
  let v : Nat := digits.foldl (fun acc b => acc * 10 + (b.toNat - 48)) 0
  let z : Int := if neg then -v else v
  cInt (max (-9223372036854775808) (min 9223372036854775807 z))

/-- `sscanf(tok, "%d%c", &len, &fmt)`: what is not matched keeps the value it
had. -/
def sscanfDC (tok : List UInt8) (len : Int) (fmt : UInt8) : Int × UInt8 :=
  let (neg, rest) := scanSign (tok.dropWhile isSpace)
  let digits := rest.takeWhile isDigit
  if digits = [] then (len, fmt)
  else
    match rest.dropWhile isDigit with
    | [] => (scanValue neg digits, fmt)
    | c :: _ => (scanValue neg digits, c)

/-- What a token means once `sscanf` has run: the letter decides, and
for `d` and `u` the length picks the width. -/
def tokenOf (tok : List UInt8) (len : Int) (fmt : UInt8) : Option Token :=
  if tok.head? = some (chr 's') then some .string
  else if fmt = chr 'd' then
    if len = 1 then some .s8
    else if len = 2 then some .s16
    else if len = 4 then some .s32
    else none
  else if fmt = chr 'u' then
    if len = 1 then some .u8
    else if len = 2 then some .u16
    else if len = 4 then some .u32
    else none
  else none

/-- The token loop of `urpc_argcache`. `slots` is the length of the array and
`cache` what has been stored in it so far, so the next index is its length.
`len` and `fmt` live across tokens. -/
def argcacheLoop (slots : Nat) (pack : Bool) :
    List (List UInt8) → Int → UInt8 → List CacheFn →
      Res (Option (List CacheFn))
  | [], _, _, cache =>
      -- the NULL after the last entry
      if cache.length < slots then pure (some cache) else .error .outOfBounds
  | tok :: toks, len, fmt, cache =>
      let (len, fmt) := sscanfDC tok len fmt
      match tokenOf tok len fmt with
      | none => pure none
      | some f =>
          let fn := if pack then CacheFn.pack f else CacheFn.unpack f
          if cache.length < slots then
            argcacheLoop slots pack toks len fmt (cache ++ [fn])
          else .error .outOfBounds

/-- `urpc_argcache`: `none` is NULL, for a missing format and for a bad one.
`len` and `fmt` are what the two locals happen to hold on entry. The array
and the copy of the string are allocated unchecked, and taken to be there. -/
def urpcArgcache (len : Int) (fmt : UInt8) (format : Option (List UInt8))
    (pack : Bool) : Res (Option (List CacheFn)) :=
  match format with
  | none => pure none
  | some str =>
      let argcount := strdlmcnt str (chr ';')
      argcacheLoop (argcount + 1) pack (strtok str (chr ';')) len fmt []

/-! ## The two loops -/

def stackStart : Nat := 3

/-- What a packer stored at `&chunk->data[chunk->size]`; one that stored
nothing did not follow the pointer. -/
def AuraChunk.packed (chunk : AuraChunk) (bytes : List UInt8) : Res AuraChunk :=
  if bytes = [] then pure chunk else chunk.store chunk.size bytes

/-- The loop of `urpc_pack_data`. `cache` is the array from slot `i` on,
`grants` the allocator's answers to the grows still to come. `lua_arg++`
happens whenever a packer is called, also when it is called again. -/
def packLoop (host : Endian) (L : LuaState) (swap : Bool) :
    Nat → List CacheFn → Nat → (Nat → Grant) → AuraChunk → Res AuraChunk
  | _, [], _, _, chunk => pure chunk
  | 0, _ :: _, _, _, _ => .error .outOfFuel
  | fuel + 1, fn :: cache, luaArg, grants, chunk => do
      let (n, bytes) ← fn.callPack host L luaArg (chunk.alloc - chunk.size) swap
      let chunk ← chunk.packed bytes
      if n < 0 then
        let extra ← intArith (-n * 2)
        let (_, chunk) ← auraChunkRealloc (grants 0) chunk extra
        packLoop host L swap fuel (fn :: cache) (luaArg + 1)
          (fun i => grants (i + 1)) chunk
      else
        packLoop host L swap fuel cache (luaArg + 1) grants
          { chunk with size := chunk.size + n.toNat }

/-- `urpc_pack_data`: `none` is NULL. `mem` answers the first allocation. -/
def urpcPackData (host : Endian) (mem : Grant) (grants : Nat → Grant)
    (fuel : Nat) (L : LuaState) (sz : Nat) (reserved : Nat)
    (cache : Option (List CacheFn)) (swap : Bool) : Res (Option AuraChunk) :=
  match auraChunkAllocate mem (cInt sz) with
  | none => pure none
  | some chunk =>
      let chunk := { chunk with size := reserved }
      match cache with
      | none => pure (some chunk)
      | some fns => some <$> packLoop host L swap fuel fns stackStart grants chunk

/-- The loop of `urpc_unpack_data`, with what it has pushed and counted. -/
def unpackLoop (host : Endian) (swap : Bool) :
    List CacheFn → List UInt8 → List LuaValue → Nat →
      Res (List LuaValue × Nat)
  | [], _, pushed, i => pure (pushed, i)
  | fn :: cache, data, pushed, i => do
      let (v, bytes) ← fn.callUnpack host data swap
      unpackLoop host swap cache (data.drop bytes) (pushed ++ [v]) (i + 1)

/-- `urpc_unpack_data`: the values pushed, bottom first, and the count. -/
def urpcUnpackData (host : Endian) (data : List UInt8)
    (cache : Option (List CacheFn)) (swap : Bool) :
    Res (List LuaValue × Nat) :=
  match cache with
  | none => pure ([], 0)
  | some fns => unpackLoop host swap fns data [] 0

end Aura.Ref
