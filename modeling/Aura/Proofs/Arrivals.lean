import Aura.Proofs.Staged

/-!
# What has to arrive

A device ends a discovery with noise, a start byte and five bytes of which the
first is a size that can be read, and then packets, the last of them with a
body of one byte. For a call the packets alone do. Each packet before the last
has to fit the buffer and to be one an object can be made of (`Concludes`).
What a receiver still has to be sent is this, less what it already holds
(`Comes`).
-/

namespace Aura.Proofs

open Aura.Lib Aura.Ref

/-! ## What has to arrive -/

/-- A byte, and the allocator's answer to what its arrival may ask for. -/
abbrev Arrival := UInt8 × Grant

/-- What arrives in the turns of a wait. -/
def arriving : List Turn → List Arrival
  | [] => []
  | .epollin (.got bytes) g :: turns => bytes.map (·, g) ++ arriving turns
  | _ :: turns => arriving turns

def bytesIn (s : List Arrival) : List UInt8 := s.map Prod.fst

/-- The block in which a body of `n` bytes is waited for: what grows it is the
arrival of the last byte of the length. -/
def roomIn (k : Nat) (buf : List UInt8) (s : List Arrival) (n : Nat) :
    List UInt8 :=
  roomFor (s[k - 1]?.bind Prod.snd) buf n

/-- A start byte and `m` bytes, written over the beginning of a block. -/
def packetIn (room : List UInt8) (s : List Arrival) (m : Nat) : List UInt8 :=
  magicStart :: ((bytesIn s).take m ++ room.drop (1 + m))

/-- Packets with lengths of `k` bytes, the last of them of length 1, received
in the buffer `buf`. -/
inductive Concludes (host : Endian) (k : Nat) :
    List UInt8 → List Arrival → Prop
  | noise {buf : List UInt8} {b : UInt8} {g : Grant} {s : List Arrival}
      (hb : b ≠ magicStart) (h : Concludes host k (b :: buf.drop 1) s) :
      Concludes host k buf ((b, g) :: s)
  | last {buf : List UInt8} {g : Grant} {s : List Arrival}
      (hlen : lengthOf host k (bytesIn s) = 1) (hall : k + 1 ≤ s.length) :
      Concludes host k buf ((magicStart, g) :: s)
  | object {buf room : List UInt8} {g : Grant} {s : List Arrival} {n : Nat}
      (hlen : lengthOf host k (bytesIn s) = n) (hne : n ≠ 1)
      (hall : k + n ≤ s.length) (hroom : room = roomIn k buf s n)
      (hfits : 1 + (k + n) ≤ room.length) (hmax : (room.length : Int) ≤ intMax)
      (hnuls : 3 ≤ ((packetIn room s (k + n)).drop (k + 3)).count 0)
      (h : Concludes host k (packetIn room s (k + n)) (s.drop (k + n))) :
      Concludes host k buf ((magicStart, g) :: s)

/-- The same for a size of the length field that a device has declared. -/
def Heard (host : Endian) (buf : List UInt8) (szSz : Int) (s : List Arrival) :
    Prop :=
  ∃ k : Nat, szSz = k ∧ DeclaredSize k ∧ Concludes host k buf s

/-- The rest of a feature packet, `e` bytes, and what follows it. -/
def Featured (host : Endian) (e : Nat) (buf : List UInt8) (size : Nat)
    (s : List Arrival) : Prop :=
  e ≤ s.length ∧ ∃ data stag,
    storeBytes buf size (bytesIn (s.take e)) = .ok data ∧
    data[1]? = some stag ∧
    Heard host data stag.toBitVec.toInt (s.drop e)

/-- Noise, a start byte, and the feature packet. The start byte is looked for
at the beginning of the buffer, wherever the byte that arrives is stored. -/
inductive Announces (host : Endian) :
    List UInt8 → Nat → List Arrival → Prop
  | noise {buf data : List UInt8} {size : Nat} {b : UInt8} {g : Grant}
      {s : List Arrival} (hstore : storeBytes buf size [b] = .ok data)
      (hb : data[0]? ≠ some magicStart) (h : Announces host data 0 s) :
      Announces host buf size ((b, g) :: s)
  | start {buf data : List UInt8} {size : Nat} {b : UInt8} {g : Grant}
      {s : List Arrival} (hstore : storeBytes buf size [b] = .ok data)
      (hb : data[0]? = some magicStart)
      (h : Featured host 5 data (size + 1) s) :
      Announces host buf size ((b, g) :: s)

/-- What is in the buffer of a packet that has not arrived as a whole. -/
def held (x : SerialXfer) : List Arrival := x.recv.payload.map (·, none)

/-- What arrives ends a wait of this receiver. -/
def Comes (host : Endian) (x : SerialXfer) (s : List Arrival) : Prop :=
  match x.handleData, x.data.rxstate with
  | .packets, _ => Heard host x.recv.data x.data.szSz (held x ++ s)
  | .discoveryInit, .waitStart => Announces host x.recv.data x.recv.size s
  | .discoveryInit, _ =>
      Featured host x.expectBytes.toNat x.recv.data x.recv.size s

section Packets

variable {host : Endian} {k : Nat} {buf buf' : List UInt8} {g g' : Grant}
  {s s' : List Arrival}

theorem concludes_noise_iff {b : UInt8} (hb : b ≠ magicStart) :
    Concludes host k buf ((b, g) :: s) ↔
      Concludes host k (b :: buf.drop 1) s := by
  constructor
  · intro h
    cases h with
    | noise _ h => exact h
    | last => exact absurd rfl hb
    | object => exact absurd rfl hb
  · exact .noise hb

/-- One byte of an announcement. -/
theorem announces_cons_iff {data : List UInt8} {size : Nat} {b : UInt8}
    (hstore : storeBytes buf size [b] = .ok data) :
    Announces host buf size ((b, g) :: s) ↔
      if data[0]? = some magicStart then Featured host 5 data (size + 1) s
      else Announces host data 0 s := by
  by_cases hb : data[0]? = some magicStart
  · rw [if_pos hb]
    constructor
    · intro h
      cases h with
      | noise hstore' hne =>
          cases hstore.symm.trans hstore'
          exact absurd hb hne
      | start hstore' _ h =>
          cases hstore.symm.trans hstore'
          exact h
    · exact .start hstore hb
  · rw [if_neg hb]
    constructor
    · intro h
      cases h with
      | noise hstore' _ h =>
          cases hstore.symm.trans hstore'
          exact h
      | start hstore' hsome =>
          cases hstore.symm.trans hstore'
          exact absurd hsome hb
    · exact .noise hstore hb

/-- A packet, by its length. -/
theorem concludes_start_iff :
    Concludes host k buf ((magicStart, g) :: s) ↔
      ∃ n, lengthOf host k (bytesIn s) = n ∧ k + n ≤ s.length ∧
        (n ≠ 1 → 1 + (k + n) ≤ (roomIn k buf s n).length ∧
          ((roomIn k buf s n).length : Int) ≤ intMax ∧
          3 ≤ ((packetIn (roomIn k buf s n) s (k + n)).drop (k + 3)).count 0 ∧
          Concludes host k (packetIn (roomIn k buf s n) s (k + n))
            (s.drop (k + n))) := by
  constructor
  · intro h
    cases h with
    | noise hb => exact absurd rfl hb
    | last hlen hall => exact ⟨1, hlen, hall, fun hne => absurd rfl hne⟩
    | object hlen _ hall hroom hfits hmax hnuls h =>
        subst hroom
        exact ⟨_, hlen, hall, fun _ => ⟨hfits, hmax, hnuls, h⟩⟩
  · rintro ⟨n, hlen, hall, hobject⟩
    by_cases hne : n = 1
    · subst hne
      exact .last hlen hall
    · obtain ⟨hfits, hmax, hnuls, h⟩ := hobject hne
      exact .object hlen hne hall rfl hfits hmax hnuls h

/-- What is already in the buffer can be part of it or still to come. -/
theorem concludes_congr (hbytes : bytesIn s' = bytesIn s)
    (hbehind : ∀ n, lengthOf host k (bytesIn s) = n →
      s'.drop (k + n) = s.drop (k + n) ∧
      (n ≠ 1 →
        (roomIn k buf' s' n).length = (roomIn k buf s n).length ∧
        (roomIn k buf' s' n).drop (1 + (k + n))
          = (roomIn k buf s n).drop (1 + (k + n)))) :
    Concludes host k buf' ((magicStart, g') :: s') ↔
      Concludes host k buf ((magicStart, g) :: s) := by
  have hlen : s'.length = s.length := by
    have h := congrArg List.length hbytes
    rwa [bytesIn, bytesIn, List.length_map, List.length_map] at h
  rw [concludes_start_iff, concludes_start_iff, hbytes, hlen]
  refine exists_congr fun n => and_congr_right fun hn => and_congr_right
    fun _ => ?_
  obtain ⟨hdrop, hroom⟩ := hbehind n hn
  refine forall_congr' fun hne => ?_
  obtain ⟨hlength, hroomdrop⟩ := hroom hne
  rw [packetIn, packetIn, hbytes, hlength, hroomdrop, hdrop]

/-- A length that is negative as an `int` ends nothing. -/
theorem concludes_length_le (h : Concludes host k buf ((magicStart, g) :: s)) :
    (lengthOf host k (bytesIn s) : Int) ≤ intMax := by
  obtain ⟨n, hn, _, hobject⟩ := concludes_start_iff.mp h
  rw [hn]
  by_cases hne : n = 1
  · rw [hne]
    decide
  · obtain ⟨hfits, hmax, _⟩ := hobject hne
    omega

theorem heard_iff {szSz : Int} (hk : DeclaredSize k) (hsz : szSz = k) :
    Heard host buf szSz s ↔ Concludes host k buf s := by
  constructor
  · rintro ⟨k', hk', _, h⟩
    obtain rfl : k' = k := by omega
    exact h
  · intro h
    exact ⟨k, hsz, hk, h⟩

end Packets

section Stages

variable {host : Endian} {x y : SerialXfer} {s : List Arrival}

theorem comes_packets (hh : x.handleData = .packets) :
    Comes host x s ↔ Heard host x.recv.data x.data.szSz (held x ++ s) := by
  unfold Comes
  rw [hh]

theorem comes_announce (hh : x.handleData = .discoveryInit)
    (hs : x.data.rxstate = .waitStart) :
    Comes host x s ↔ Announces host x.recv.data x.recv.size s := by
  unfold Comes
  rw [hh, hs]

theorem comes_features (hh : x.handleData = .discoveryInit)
    (hs : x.data.rxstate = .discovery) :
    Comes host x s ↔
      Featured host x.expectBytes.toNat x.recv.data x.recv.size s := by
  unfold Comes
  rw [hh, hs]

theorem held_empty (hsize : x.recv.size = 0) : held x = [] := by
  rw [held, AuraChunk.payload, hsize, List.take_zero, List.map_nil]

theorem held_start {w : List UInt8} (hw : x.recv.payload = magicStart :: w) :
    held x = (magicStart, none) :: w.map (·, none) := by
  rw [held, hw, List.map_cons]

theorem bytesIn_append (s t : List Arrival) :
    bytesIn (s ++ t) = bytesIn s ++ bytesIn t := List.map_append

theorem bytesIn_map (bytes : List UInt8) (g : Grant) :
    bytesIn (bytes.map (·, g)) = bytes := by
  rw [bytesIn, List.map_map]
  exact List.map_id _

/-- Without anything arriving no wait ends. -/
theorem not_comes_nil (hx : Staged host x) : ¬ Comes host x [] := by
  cases hx.stage with
  | announce hh hs he =>
      rw [comes_announce hh hs]
      exact nofun
  | features hh hs hpos hle =>
      rw [comes_features hh hs]
      rintro ⟨hall, _⟩
      rw [List.length_nil] at hall
      omega
  | lost hh hk =>
      rw [comes_packets hh]
      rintro ⟨k, hsz, hk', _⟩
      exact hk (hsz ▸ hk')
  | start hh hs hk hsz hsize he =>
      rw [comes_packets hh, heard_iff hk hsz, held_empty hsize]
      exact nofun
  | length hh hs hk hsz hw hsum hpos =>
      rw [comes_packets hh, heard_iff hk hsz, held_start hw, List.append_nil,
        concludes_start_iff]
      rintro ⟨n, _, hall, _⟩
      rw [List.length_map] at hall
      omega
  | @body k w n hh hs hk hsz hw hn hlen hsum hpos hnone =>
      rw [comes_packets hh, heard_iff hk hsz, held_start hw, List.append_nil]
      intro h
      have hint := concludes_length_le h
      obtain ⟨m, hm, hall, hobject⟩ := concludes_start_iff.mp h
      rw [List.length_map] at hall
      rw [bytesIn_map] at hm hint
      rw [cInt_of_mem (by unfold intMax; omega) hint] at hn
      -- nothing is missing, so the body is empty and this is not the last one
      have hlast : w.length = k := hnone (by
        have hge := hpos (by omega)
        omega)
      obtain rfl : m = 0 := by omega
      obtain ⟨_, _, _, h⟩ := hobject (by decide)
      rw [Nat.add_zero, List.drop_of_length_le
        (by rw [List.length_map]; omega)] at h
      cases h

end Stages

end Aura.Proofs
