import Aura.Proofs.Staged
import Aura.Proofs.Table

/-!
# What a device reports and what the table holds

A device answers a discovery in the sizes and the order it likes. A host hears
the objects the device describes if it reads the lengths as they were written
and the ids are of one byte (`Legible`); what it has heard at any time is read
off the bytes that are still ahead (`Hearing`), and every read that brings more
of them is taken (`Hearing.steps`).

`l_urpc_discovery` then allocates as many pointers as the transport counted,
from zero each time, and writes one for every object of a list that lives as
long as the instance. So table and report agree for a discovery that found the
list empty, and for no other (`table_matches_iff`).
-/

namespace Aura.Proofs

open Aura.Lib Aura.Ref

/-! ## Reports -/

/-- An object as a device describes it, with an id of any size. -/
structure Description where
  flags : UInt8
  ident : List UInt8
  name : List UInt8
  args : List UInt8
  reply : List UInt8
  trailing : List UInt8
  name_clean : 0 ∉ name
  args_clean : 0 ∉ args
  reply_clean : 0 ∉ reply
  deriving DecidableEq

namespace Description

def body (o : Description) : List UInt8 :=
  o.flags :: o.ident ++ o.name ++ [0] ++ o.args ++ [0] ++ o.reply ++ [0]
    ++ o.trailing

/-- What is described. -/
def object (o : Description) : UrpcObject :=
  { flags := o.flags
    name := dupNonEmpty o.name
    args := dupNonEmpty o.args
    acache := none
    reply := dupNonEmpty o.reply
    rcache := none }

theorem length_body (o : Description) : 4 ≤ o.body.length := by
  simp only [body, List.cons_append, List.length_cons, List.length_append,
    List.length_nil]
  omega

/-- With an id of one byte the parser finds what is described. -/
theorem parseObject_body (o : Description) (hident : o.ident.length = 1)
    (before rest : List UInt8) :
    parseObject (before ++ (o.body ++ rest)) before.length
      = .ok o.object := by
  obtain ⟨i, hi⟩ := List.length_eq_one_iff.mp hident
  have hbody : o.body ++ rest = o.flags :: i :: o.name ++ [0] ++ o.args ++ [0]
      ++ o.reply ++ [0] ++ (o.trailing ++ rest) := by
    simp only [body, hi, List.append_assoc, List.cons_append, List.nil_append]
  rw [hbody]
  exact parseObject_strings o.flags i o.name_clean o.args_clean o.reply_clean

end Description

/-- What a device answers a discovery with: a feature packet with the sizes of
its lengths and ids, a packet for every object, and one with a body of a single
byte. Noise may stand in front of each packet; lengths are in the order of the
device. -/
structure Report where
  width : Nat
  idWidth : Nat
  order : Endian
  etag : UInt8
  a : UInt8
  b : UInt8
  lead : List UInt8
  objects : List (List UInt8 × Description)
  gap : List UInt8
  last : UInt8
  declared : DeclaredSize width
  idents : ∀ p ∈ objects, p.2.ident.length = idWidth
  lengths : ∀ p ∈ objects, p.2.body.length < 256 ^ width
  lead_noise : magicStart ∉ lead
  object_noise : ∀ p ∈ objects, magicStart ∉ p.1
  gap_noise : magicStart ∉ gap
  deriving DecidableEq

namespace Report

variable (d : Report)

def features : List UInt8 :=
  [magicStart, toByte d.width, toByte d.idWidth, d.etag, d.a, d.b]

/-- Start byte and length of a packet. -/
def header (body : List UInt8) : List UInt8 :=
  magicStart :: d.order.encode d.width body.length

/-- The packets that follow the feature packet when `rest` are the objects not
described yet, each with its noise. -/
def pending (rest : List (List UInt8 × Description)) :
    List (List UInt8 × List UInt8) :=
  rest.map (fun p => (p.1, p.2.body)) ++ [(d.gap, [d.last])]

/-- Packets on the line. -/
def stream (packets : List (List UInt8 × List UInt8)) : List UInt8 :=
  packets.flatMap fun p => p.1 ++ (d.header p.2 ++ p.2)

def bytes : List UInt8 :=
  d.lead ++ (d.features ++ d.stream (d.pending d.objects))

/-- The objects described, in order. -/
def found : List UrpcObject := d.objects.map (·.2.object)

end Report

/-- A host that reads the lengths of the device as they were written, and a
device with ids of the one byte the parser skips. -/
def Legible (host : Endian) (d : Report) : Prop :=
  d.idWidth = 1 ∧ (d.width = 1 ∨ d.order = host)

instance (host : Endian) (d : Report) : Decidable (Legible host d) :=
  inferInstanceAs (Decidable (_ ∧ _))

section Readings

variable {host : Endian} {d : Report}

theorem Legible.decode (h : Legible host d) {n : Nat}
    (hn : n < 256 ^ d.width) :
    host.decode (d.order.encode d.width n) = n := by
  rcases h.2 with hone | rfl
  · rw [Endian.decode_encode_iff hn, hone]
    exact .inr (by simp [OrderFree, Endian.encode, leBytes])
  · exact Endian.decode_encode _ hn

/-- The packets to come are the one in front and those behind it. -/
theorem Report.pending_cases (rest : List (List UInt8 × Description)) :
    (rest = [] ∧ d.pending rest = [(d.gap, [d.last])]) ∨
      ∃ gap o rest', rest = (gap, o) :: rest' ∧
        d.pending rest = (gap, o.body) :: d.pending rest' := by
  cases rest with
  | nil => exact .inl ⟨rfl, rfl⟩
  | cons p rest' => exact .inr ⟨p.1, p.2, rest', rfl, rfl⟩

theorem Report.next_packet {rest : List (List UInt8 × Description)}
    {packets : List (List UInt8 × List UInt8)} {gap body : List UInt8}
    (hrest : ∀ q ∈ rest, q ∈ d.objects)
    (hnext : d.pending rest = (gap, body) :: packets) :
    magicStart ∉ gap ∧ body ≠ [] ∧ body.length < 256 ^ d.width := by
  have hp : (gap, body) ∈ d.pending rest := hnext ▸ List.mem_cons_self ..
  rcases List.mem_append.mp hp with hobject | hend
  · obtain ⟨q, hq, hpair⟩ := List.mem_map.mp hobject
    cases hpair
    exact ⟨d.object_noise q (hrest q hq), List.cons_ne_nil _ _,
      d.lengths q (hrest q hq)⟩
  · cases List.mem_singleton.mp hend
    refine ⟨d.gap_noise, List.cons_ne_nil _ _, ?_⟩
    exact Nat.one_lt_pow (by have := d.declared.le; omega) (by decide)

theorem Report.stream_cons (gap body : List UInt8)
    (packets : List (List UInt8 × List UInt8)) :
    d.stream ((gap, body) :: packets)
      = gap ++ (d.header body ++ (body ++ d.stream packets)) := by
  simp only [stream, List.flatMap_cons, List.append_assoc]

/-- The byte a receiver at rest gets next is noise or starts a packet. -/
theorem start_or_noise {noise tail after : List UInt8} {b : UInt8}
    (hnoise : magicStart ∉ noise)
    (hb : b :: after = noise ++ magicStart :: tail) :
    (b = magicStart ∧ after = tail) ∨
      b ≠ magicStart ∧ ∃ noise', magicStart ∉ noise' ∧
        after = noise' ++ magicStart :: tail := by
  cases noise with
  | nil =>
      cases hb
      exact .inl ⟨rfl, rfl⟩
  | cons c noise' =>
      cases hb
      exact .inr ⟨fun hm => hnoise (hm ▸ List.mem_cons_self ..), noise',
        fun hm => hnoise (List.mem_cons_of_mem _ hm), rfl⟩

end Readings

/-! ## Where a receiver is in a report -/

/-- In a discovery that found `base`, the objects `done` were found since. -/
structure Tallied (base done : List UrpcObject) (s : SerialInstance) : Prop where
  state : s.state = 0
  objcount : s.objcount = done.length
  objlist : s.inst.objlist = base ++ done

/-- And `rest` are the objects of the report still to come. -/
structure Sofar (d : Report) (base : List UrpcObject)
    (rest : List (List UInt8 × Description)) (s : SerialInstance) : Prop where
  size : s.szSz = d.width
  tallied : ∃ done, d.objects = done ++ rest ∧
    Tallied base (done.map (·.2.object)) s

/-- The piece a handler waits for, with what the buffer holds in front of it,
and the part of the report behind it. -/
inductive Piece (d : Report) (base : List UrpcObject) (s : SerialInstance) :
    Handler → List UInt8 → List UInt8 → Prop
  | lead {noise after : List UInt8} {b : UInt8} (hs : s.rxstate = .waitStart)
      (hnone : Tallied base [] s) (hnoise : magicStart ∉ noise)
      (hb : b :: after
        = noise ++ (d.features ++ d.stream (d.pending d.objects))) :
      Piece d base s .discoveryInit [b] after
  | features (hs : s.rxstate = .discovery) (hnone : Tallied base [] s) :
      Piece d base s .discoveryInit d.features
        (d.stream (d.pending d.objects))
  | start {rest : List (List UInt8 × Description)}
      {packets : List (List UInt8 × List UInt8)}
      {gap body noise after : List UInt8} {b : UInt8}
      (hs : s.rxstate = .waitStart) (hsofar : Sofar d base rest s)
      (hnext : d.pending rest = (gap, body) :: packets)
      (hnoise : magicStart ∉ noise)
      (hb : b :: after
        = noise ++ (d.header body ++ (body ++ d.stream packets))) :
      Piece d base s .packets [b] after
  | length {rest : List (List UInt8 × Description)}
      {packets : List (List UInt8 × List UInt8)} {gap body : List UInt8}
      (hs : s.rxstate = .getLen) (hsofar : Sofar d base rest s)
      (hnext : d.pending rest = (gap, body) :: packets) :
      Piece d base s .packets (d.header body) (body ++ d.stream packets)
  | body {rest : List (List UInt8 × Description)}
      {packets : List (List UInt8 × List UInt8)} {gap body : List UInt8}
      (hs : s.rxstate = .getBody) (hsofar : Sofar d base rest s)
      (hnext : d.pending rest = (gap, body) :: packets) :
      Piece d base s .packets (d.header body ++ body) (d.stream packets)

/-- What a receiver knows with `ahead` of the report still to come: it waits
for the rest of a piece, or it has heard everything. -/
inductive Hearing (d : Report) (base : List UrpcObject) (x : SerialXfer)
    (ahead : List UInt8) : Prop
  | waits {more after : List UInt8} (hmore : more ≠ [])
      (he : x.expectBytes = more.length)
      (hpiece : Piece d base x.data x.handleData (x.recv.payload ++ more) after)
      (hahead : ahead = more ++ after)
  | heard (he : x.expectBytes = 1) (hstate : x.data.state = 1)
      (hcount : x.data.objcount = d.found.length)
      (hlist : x.data.inst.objlist = base ++ d.found) (hahead : ahead = [])

section Hearings

variable {host : Endian} {d : Report} {base : List UrpcObject}
  {x y : SerialXfer} {ahead bytes : List UInt8}

theorem Piece.state {s : SerialInstance} {h : Handler} {got after : List UInt8}
    (hp : Piece d base s h got after) : s.state = 0 := by
  cases hp with
  | lead _ hnone | features _ hnone => exact hnone.state
  | start _ hsofar | length _ hsofar | body _ hsofar =>
      obtain ⟨done, _, htallied⟩ := hsofar.tallied
      exact htallied.state

/-- The receiver knows that the report is over, by a `state` other than zero. -/
theorem Hearing.state_ne_zero_iff (h : Hearing d base x ahead) :
    x.data.state ≠ 0 ↔ ahead = [] := by
  cases h with
  | waits hmore _ hpiece hahead =>
      rw [hahead, List.append_eq_nil_iff]
      exact ⟨fun hne => absurd hpiece.state hne,
        fun hnil => absurd hnil.1 hmore⟩
  | heard _ hstate _ _ hahead =>
      rw [hstate]
      exact ⟨fun _ => hahead, fun _ => by decide⟩

/-- A read that leaves something to be expected. -/
theorem Hearing.absorbs (hx : Hearing d base x ahead)
    (hy : Absorbed x bytes y) (hle : (bytes.length : Int) ≤ x.expectBytes)
    (hpre : bytes <+: ahead) (hrest : y.expectBytes ≠ 0) :
    Hearing d base y (ahead.drop bytes.length) := by
  have he' := hy.expectBytes
  cases hx with
  | @waits more after hmore he hpiece hahead =>
      have hshort : bytes <+: more := by
        rw [hahead] at hpre
        exact List.prefix_of_prefix_length_le hpre (List.prefix_append ..)
          (by omega)
      obtain ⟨more', rfl⟩ := hshort
      rw [List.length_append] at he
      have hmore' : more' ≠ [] := by
        rintro rfl
        rw [List.length_nil] at he
        omega
      rw [← List.append_assoc, ← hy.payload, ← hy.data, ← hy.handleData]
        at hpiece
      refine .waits hmore' (by omega) hpiece ?_
      rw [hahead, List.append_assoc, List.drop_left]
  | heard he hstate hcount hlist hahead =>
      subst hahead
      have hnil : bytes = [] := List.prefix_nil.mp hpre
      subst hnil
      refine .heard ?_ ?_ ?_ ?_ rfl
      · rw [he', he]
        rfl
      · rw [hy.data, hstate]
      · rw [hy.data, hcount]
      · rw [hy.data, hlist]

/-- A read that completes a piece. -/
theorem Hearing.completes (hx : Hearing d base x ahead)
    (hy : Absorbed x bytes y) (hpre : bytes <+: ahead)
    (hzero : y.expectBytes = 0) :
    Piece d base y.data y.handleData y.recv.payload
      (ahead.drop bytes.length) := by
  have he' := hy.expectBytes
  cases hx with
  | @waits more after hmore he hpiece hahead =>
      have hlen : bytes.length = more.length := by omega
      have hall : bytes = more := by
        rw [hahead] at hpre
        exact (List.prefix_of_prefix_length_le hpre (List.prefix_append ..)
          (Nat.le_of_eq hlen)).eq_of_length hlen
      rw [hy.payload, hy.data, hy.handleData, hahead, hall, List.drop_left]
      exact hpiece
  | heard he _ _ _ hahead =>
      subst hahead
      have hnil : bytes = [] := List.prefix_nil.mp hpre
      rw [hnil, List.length_nil] at he'
      omega

end Hearings

/-! ## A piece and the call it leads to -/

theorem Sofar.mem {d : Report} {base : List UrpcObject}
    {rest : List (List UInt8 × Description)} {s : SerialInstance}
    (h : Sofar d base rest s) : ∀ p ∈ rest, p ∈ d.objects := by
  obtain ⟨done, hall, _⟩ := h.tallied
  intro p hp
  rw [hall]
  exact List.mem_append_right done hp

theorem Tallied.enters {base done : List UrpcObject} {s : SerialInstance}
    (h : Tallied base done s) (st : RxState) :
    Tallied base done { s with rxstate := st } :=
  ⟨h.state, h.objcount, h.objlist⟩

theorem Sofar.enters {d : Report} {base : List UrpcObject}
    {rest : List (List UInt8 × Description)} {s : SerialInstance}
    (h : Sofar d base rest s) (st : RxState) :
    Sofar d base rest { s with rxstate := st } := by
  obtain ⟨hsize, done, hall, htallied⟩ := h
  exact ⟨hsize, done, hall, htallied.enters st⟩

section Calls

variable {host : Endian} {d : Report} {base : List UrpcObject}
  {y z : SerialXfer}

theorem loadByte_payload {c : AuraChunk} {b : UInt8} {w : List UInt8}
    (hc : c.payload = b :: w) : loadByte c.data 0 = .ok b := by
  rw [data_eq_payload_append c, hc]
  rfl

/-- A start byte, and a request that needs no other block. -/
theorem awaitStart_of_start (g : Grant) (st : RxState) {n : Nat}
    (hgot : y.recv.payload = [magicStart]) (hinv : RxInv y)
    (hn : n ≤ 256) (hinside : y.recv.size ≤ y.recv.alloc) :
    ∃ z, awaitStart g y st n = .ok z ∧ Requested y st n z := by
  have hge := hinv.alloc_ge
  have hmax := hinv.alloc_le
  have hreq := auraAsyncExpectBytes_fits g (x := entering y st) (n := n) hmax
    (show (n : Int) ≤ y.recv.alloc by omega)
    (show (y.recv.alloc : Int) - n ≤ intMax by omega)
  refine ⟨_, ?_, requested_of_eq_ok hinside hmax hreq⟩
  rw [awaitStart, loadByte_payload hgot, ok_bind,
    if_neg (not_not.mpr rfl), hreq]
  rfl

theorem awaitStart_of_noise {g : Grant} {st : RxState} {n : Int} {b : UInt8}
    (hgot : y.recv.payload = [b]) (hb : b ≠ magicStart) :
    awaitStart g y st n = .ok (resynced y) := by
  rw [awaitStart, loadByte_payload hgot, ok_bind, if_pos hb]
  rfl

/-- A receiver at rest waits for the byte that comes next. -/
theorem hearing_at_rest {noise tail : List UInt8} (he : z.expectBytes = 1)
    (hsize : z.recv.size = 0)
    (hpiece : ∀ b after, b :: after = noise ++ magicStart :: tail →
      Piece d base z.data z.handleData [b] after) :
    Hearing d base z (noise ++ magicStart :: tail) := by
  have hgot : z.recv.payload = [] := by
    rw [AuraChunk.payload, hsize, List.take_zero]
  obtain ⟨b, after, hb⟩ : ∃ b after,
      b :: after = noise ++ magicStart :: tail := by
    cases noise with
    | nil => exact ⟨_, _, rfl⟩
    | cons c noise' => exact ⟨_, _, rfl⟩
  refine .waits (List.cons_ne_nil b []) he ?_ hb.symm
  rw [hgot]
  exact hpiece b after hb

/-- A request leads to the next piece. -/
theorem hearing_requested {st : RxState} {n : Int} {more after : List UInt8}
    (hreq : Requested y st n z) (hn : cInt n = more.length)
    (hmore : more ≠ [])
    (hpiece : Piece d base { y.data with rxstate := st } y.handleData
      (y.recv.payload ++ more) after) :
    Hearing d base z (more ++ after) := by
  refine .waits hmore (hreq.expectBytes.trans hn) ?_ rfl
  rw [hreq.payload, hreq.data, hreq.handleData]
  exact hpiece

/-- Between two packets. -/
theorem Sofar.hearing {rest : List (List UInt8 × Description)}
    (hsofar : Sofar d base rest z.data) (hh : z.handleData = .packets)
    (hs : z.data.rxstate = .waitStart) (he : z.expectBytes = 1)
    (hsize : z.recv.size = 0) :
    Hearing d base z (d.stream (d.pending rest)) := by
  obtain ⟨⟨gap, body⟩, packets, hnext⟩ :
      ∃ p packets, d.pending rest = p :: packets := by
    rcases d.pending_cases rest with ⟨_, h⟩ | ⟨_, _, _, _, h⟩
    · exact ⟨_, _, h⟩
    · exact ⟨_, _, h⟩
  obtain ⟨hnoise, _, _⟩ := d.next_packet hsofar.mem hnext
  rw [hnext, d.stream_cons]
  exact hearing_at_rest he hsize fun b after hb =>
    hh ▸ .start hs hsofar hnext hnoise hb

/-- The size a device declares is the size the host reads. -/
theorem declared_char {k : Nat} (hk : DeclaredSize k) :
    (toByte k).toBitVec.toInt = k := by
  unfold DeclaredSize at hk
  obtain rfl | rfl | rfl : k = 1 ∨ k = 2 ∨ k = 4 := by omega
  all_goals rfl

/-- The two handlers meet noise alike. -/
theorem handleData_of_noise {g : Grant} {b : UInt8}
    (hs : y.data.rxstate = .waitStart) (hgot : y.recv.payload = [b])
    (hb : b ≠ magicStart) :
    handleData host g y.handleData y = .ok (resynced y) := by
  cases y.handleData with
  | packets =>
      rw [handleData_packets_waitStart hs]
      exact awaitStart_of_noise hgot hb
  | discoveryInit =>
      rw [handleData_init_waitStart hs]
      exact awaitStart_of_noise hgot hb

theorem features_data (hgot : y.recv.payload = d.features) :
    y.recv.data = magicStart :: toByte d.width :: toByte d.idWidth :: d.etag
      :: d.a :: d.b :: y.recv.data.drop y.recv.size := by
  have hsplit := data_eq_payload_append y.recv
  rwa [hgot] at hsplit

/-- The feature packet is there. -/
theorem features_read (host : Endian) (g : Grant)
    (hs : y.data.rxstate = .discovery)
    (hgot : y.recv.payload = d.features) :
    ∃ swap, handleData host g .discoveryInit y
      = .ok (featured y d.width (toByte d.idWidth).toBitVec.toInt swap) := by
  have hdata := features_data hgot
  refine ⟨(host = .little && d.etag = chr 'b')
    || (host = .big && d.etag = chr 'l'), ?_⟩
  rw [handleData_init_discovery hs, ← declared_char d.declared, hdata]
  rfl

/-- A length that has room is read as it was written. -/
theorem lengthOf_header (hread : Legible host d) {body w : List UInt8}
    (hlen : body.length < 256 ^ d.width) :
    lengthOf host d.width (d.order.encode d.width body.length ++ w)
      = body.length := by
  rw [lengthOf, List.take_left' (d.order.length_encode _ _),
    hread.decode hlen]

theorem cInt_of_room {n : Nat} (hn : n < 4294967296) (h : 0 ≤ cInt n) :
    cInt n = n := by
  unfold cInt at *
  omega

theorem width_pow (hk : DeclaredSize d.width) :
    256 ^ d.width ≤ 4294967296 := by
  have hle : 256 ^ d.width ≤ 256 ^ 4 :=
    Nat.pow_le_pow_right (by decide) hk.le.2
  exact hle

/-- A body is there, and it is read: an object, or the end of the report. -/
theorem Sofar.body_read {g : Grant} {rest : List (List UInt8 × Description)}
    {packets : List (List UInt8 × List UInt8)} {gap body : List UInt8}
    (hread : Legible host d) (hs : y.data.rxstate = .getBody)
    (hh : y.handleData = .packets) (hsofar : Sofar d base rest y.data)
    (hnext : d.pending rest = (gap, body) :: packets)
    (hgot : y.recv.payload = d.header body ++ body) :
    ∃ z, handleData host g .packets y = .ok z ∧
      Hearing d base z (d.stream packets) := by
  obtain ⟨_, _, hlen⟩ := d.next_packet hsofar.mem hnext
  obtain ⟨hsize, done, hall, hzero, hcount, hlist⟩ := hsofar
  have hpow := width_pow d.declared
  have hframed : y.recv.payload = magicStart
      :: (d.order.encode d.width body.length ++ body) := hgot
  have hnum : numberToInt host y.recv.data 1 y.data.szSz
      = .ok body.length := by
    rw [hsize, numberToInt_payload d.declared hframed
      (by rw [List.length_append, d.order.length_encode]; omega),
      lengthOf_header hread hlen]
  rw [handleData_packets_getBody hs]
  rcases d.pending_cases rest with
    ⟨rfl, hlast⟩ | ⟨gap', o, rest', rfl, hpending⟩
  · -- the packet with the single byte
    cases hlast.symm.trans hnext
    have hone : cInt ([d.last] : List UInt8).length = 1 := by
      rw [List.length_singleton]
      decide
    rw [getBody_of_one hzero hnum hone, hzero]
    refine ⟨_, rfl, .heard rfl rfl ?_ ?_ rfl⟩
    · show y.data.objcount = _
      rw [hcount, List.length_map, Report.found, List.length_map, hall,
        List.append_nil]
    · show y.data.inst.objlist = _
      rw [hlist, Report.found, hall, List.append_nil]
  · -- one more object
    obtain ⟨⟨rfl, rfl⟩, rfl⟩ : (gap' = gap ∧ o.body = body) ∧ _ := by
      simpa only [List.cons.injEq, Prod.mk.injEq] using
        hpending.symm.trans hnext
    have hlong := o.length_body
    have hmem : (gap', o) ∈ d.objects := by
      rw [hall]
      exact List.mem_append_right done (List.mem_cons_self ..)
    have hident : o.ident.length = 1 := (d.idents _ hmem).trans hread.1
    have hoff : (1 + y.data.szSz).toNat = (d.header o.body).length := by
      rw [hsize, Report.header, List.length_cons, d.order.length_encode]
      omega
    have hparse : parseObject y.recv.data (1 + y.data.szSz).toNat
        = .ok o.object := by
      rw [hoff, data_eq_payload_append y.recv, hgot, List.append_assoc]
      exact o.parseObject_body hident _ _
    rw [getBody_of_object hzero hnum (by unfold cInt; omega)
      (by rw [hsize]; omega), hparse]
    refine ⟨_, rfl, Sofar.hearing ?_ hh rfl rfl rfl⟩
    refine ⟨hsize, done ++ [(gap', o)], by rw [hall, List.append_assoc]; rfl,
      hzero, ?_, ?_⟩
    · show y.data.objcount + 1 = _
      rw [hcount, List.map_append, List.length_append]
      rfl
    · show y.data.inst.objlist ++ [o.object] = _
      rw [hlist, List.map_append, List.append_assoc]
      rfl

/-- After noise a receiver is at rest, and what was ahead still is. -/
theorem noise_read {g : Grant} {b : UInt8} {noise tail : List UInt8}
    (hs : y.data.rxstate = .waitStart) (hgot : y.recv.payload = [b])
    (hb : b ≠ magicStart)
    (hpiece : ∀ b after, b :: after = noise ++ magicStart :: tail →
      Piece d base y.data y.handleData [b] after) :
    ∃ z, handleData host g y.handleData y = .ok z ∧
      Hearing d base z (noise ++ magicStart :: tail) :=
  ⟨_, handleData_of_noise hs hgot hb, hearing_at_rest rfl rfl hpiece⟩

/-- A byte in front of the feature packet, or its first one. -/
theorem Tallied.lead_read (g : Grant) {noise after : List UInt8} {b : UInt8}
    (hinv : RxInv y) (hinside : y.recv.size ≤ y.recv.alloc)
    (hh : y.handleData = .discoveryInit) (hs : y.data.rxstate = .waitStart)
    (hnone : Tallied base [] y.data) (hgot : y.recv.payload = [b])
    (hnoise : magicStart ∉ noise)
    (hb : b :: after
      = noise ++ (d.features ++ d.stream (d.pending d.objects))) :
    ∃ z, handleData host g .discoveryInit y = .ok z ∧
      Hearing d base z after := by
  rcases start_or_noise hnoise hb with ⟨rfl, rfl⟩ | ⟨hne, noise', hnoise', rfl⟩
  · obtain ⟨z, hz, hreq⟩ := awaitStart_of_start g .discovery
      (n := 5) hgot hinv (by decide) hinside
    refine ⟨z, by rw [handleData_init_waitStart hs]; exact hz, ?_⟩
    have hfive : cInt (5 : Nat) = 5 := by decide
    have hmore : [toByte d.width, toByte d.idWidth, d.etag, d.a, d.b] ≠ [] :=
      List.cons_ne_nil _ _
    refine hearing_requested hreq (hfive.trans rfl) hmore ?_
    rw [hgot, hh]
    exact .features rfl (hnone.enters _)
  · rw [← hh]
    exact noise_read hs hgot hne fun b' after' hb' =>
      hh ▸ .lead hs hnone hnoise' hb'

/-- A byte in front of a packet, or its first one. -/
theorem Sofar.start_read (g : Grant)
    {rest : List (List UInt8 × Description)}
    {packets : List (List UInt8 × List UInt8)}
    {gap body noise after : List UInt8} {b : UInt8}
    (hinv : RxInv y) (hinside : y.recv.size ≤ y.recv.alloc)
    (hh : y.handleData = .packets) (hs : y.data.rxstate = .waitStart)
    (hsofar : Sofar d base rest y.data) (hgot : y.recv.payload = [b])
    (hnext : d.pending rest = (gap, body) :: packets)
    (hnoise : magicStart ∉ noise)
    (hb : b :: after
      = noise ++ (d.header body ++ (body ++ d.stream packets))) :
    ∃ z, handleData host g .packets y = .ok z ∧ Hearing d base z after := by
  have hfour := d.declared.le
  rcases start_or_noise hnoise hb with ⟨rfl, rfl⟩ | ⟨hne, noise', hnoise', rfl⟩
  · obtain ⟨z, hz, hreq⟩ := awaitStart_of_start g .getLen
      (n := d.width) hgot hinv (by omega) hinside
    refine ⟨z, ?_, hearing_requested hreq ?_ ?_ ?_⟩
    · rw [handleData_packets_waitStart hs, hsofar.size]
      exact hz
    · rw [d.order.length_encode]
      exact cInt_of_mem (by unfold intMax; omega) (by unfold intMax; omega)
    · exact List.ne_nil_of_length_pos (by rw [d.order.length_encode]; omega)
    · rw [hgot, hh]
      exact .length rfl (hsofar.enters _) hnext
  · rw [← hh]
    exact noise_read hs hgot hne fun b' after' hb' =>
      hh ▸ .start hs hsofar hnext hnoise' hb'

/-- The length of a packet with room for its body. -/
theorem Sofar.length_read (junk : Nat → UInt8)
    {rest : List (List UInt8 × Description)}
    {packets : List (List UInt8 × List UInt8)} {gap body : List UInt8}
    (hread : Legible host d) (hinv : RxInv y)
    (hinside : y.recv.size ≤ y.recv.alloc) (hlength : LengthFits host y)
    (hh : y.handleData = .packets) (hs : y.data.rxstate = .getLen)
    (hsofar : Sofar d base rest y.data)
    (hnext : d.pending rest = (gap, body) :: packets)
    (hgot : y.recv.payload = d.header body) :
    ∃ z, handleData host (some junk) .packets y = .ok z ∧
      Hearing d base z (body ++ d.stream packets) := by
  obtain ⟨_, hbody, hlen⟩ := d.next_packet hsofar.mem hnext
  have hpow := width_pow d.declared
  have hnum : numberToInt host y.recv.data 1 y.data.szSz
      = .ok body.length := by
    have hall := lengthOf_header (w := []) hread hlen
    rw [List.append_nil] at hall
    rw [hsofar.size, numberToInt_payload d.declared hgot
      (Nat.le_of_eq (d.order.length_encode _ _).symm), hall]
  have hroom := hlength hh hs body.length (by rw [hnum]; rfl)
  have hint := cInt_of_room (by omega) hroom.1
  rw [hint] at hroom
  obtain ⟨data, hreq, _⟩ := expectBytes_of_room (x := entering y .getBody)
    junk hinv.alloc_le hroom
  refine ⟨_, ?_, hearing_requested
    (requested_of_eq_ok hinside hinv.alloc_le hreq) hint hbody ?_⟩
  · rw [handleData_packets_getLen hs, hnum, ok_bind, hint, hreq]
    rfl
  · rw [hgot, hh]
    exact .body rfl (hsofar.enters _) hnext

/-- What a complete piece leads to. -/
theorem Piece.fires {s : SerialInstance} {h : Handler} {got after : List UInt8}
    (junk : Nat → UInt8) (hread : Legible host d) (hinv : RxInv y)
    (hinside : y.recv.size ≤ y.recv.alloc) (hlength : LengthFits host y)
    (hp : Piece d base s h got after) (hs : y.data = s)
    (hh : y.handleData = h) (hgot : y.recv.payload = got) :
    ∃ z, handleData host (some junk) h y = .ok z ∧
      Hearing d base z after := by
  subst hs
  cases hp with
  | lead hs hnone hnoise hb =>
      exact hnone.lead_read _ hinv hinside hh hs hgot hnoise hb
  | features hs hnone =>
      obtain ⟨swap, hz⟩ := features_read host (some junk) hs hgot
      refine ⟨_, hz, Sofar.hearing ⟨rfl, [], rfl, ?_⟩ rfl rfl rfl rfl⟩
      exact ⟨hnone.state, hnone.objcount, hnone.objlist⟩
  | start hs hsofar hnext hnoise hb =>
      exact hsofar.start_read _ hinv hinside hh hs hgot hnext hnoise hb
  | length hs hsofar hnext =>
      exact hsofar.length_read junk hread hinv hinside hlength hh hs hnext hgot
  | body hs hsofar hnext => exact hsofar.body_read hread hs hh hnext hgot

theorem Piece.sizesDeclared {s : SerialInstance} {h : Handler}
    {got after : List UInt8} (hp : Piece d base s h got after)
    (hs : y.data = s) (hgot : y.recv.payload = got)
    (hh : y.handleData = h) : SizesDeclared y := by
  intro hinit hdiscovery stag hstag
  rw [hs] at hdiscovery
  cases hp with
  | lead hs' => cases hs'.symm.trans hdiscovery
  | features =>
      rw [features_data hgot] at hstag
      cases hstag
      rw [declared_char d.declared]
      exact d.declared
  | start | length | body => cases hh.symm.trans hinit

/-- A read that brings more of the report goes through. -/
theorem Hearing.steps {x : SerialXfer} {ahead bytes : List UInt8} {g : Grant}
    (hread : Legible host d) (hinv : RxInv x) (hx : Hearing d base x ahead)
    (hpre : bytes <+: ahead) (hle : (bytes.length : Int) ≤ x.expectBytes)
    (hg : g.isSome = true)
    (hlengths : ∀ y ∈ completed x bytes, LengthFits host y) :
    ∃ z, auraAsyncXferHandlerIn (handleData host g) (.got bytes) x = .ok z ∧
      RxInv z ∧ Hearing d base z (ahead.drop bytes.length) := by
  obtain ⟨y, hy, hinv'⟩ := hinv.absorb hle
  have habsorbed := absorbed_of_eq_ok hy
  rw [handlerIn_got, hy, ok_bind]
  by_cases hzero : y.expectBytes = 0
  · have hpiece := hx.completes habsorbed hpre hzero
    have hlength := hlengths y (completed_eq_some.mpr ⟨hy, hzero⟩)
    obtain ⟨junk, rfl⟩ := Option.isSome_iff_exists.mp hg
    obtain ⟨z, hz, hhears⟩ := hpiece.fires junk hread hinv' habsorbed.inside
      hlength rfl rfl rfl
    rw [if_pos hzero]
    exact ⟨z, hz, hinv'.handled hzero rfl (handleData_handled hz) rfl
      (hpiece.sizesDeclared rfl rfl rfl) hlength, hhears⟩
  · rw [if_neg hzero]
    exact ⟨y, rfl, hinv', hx.absorbs habsorbed hle hpre hzero⟩

end Calls

/-! ## The block -/

/-- The receive buffer is as big as at the start or has grown. -/
def Sized (x : SerialXfer) : Prop :=
  256 ≤ x.recv.alloc ∧ (x.recv.alloc : Int) ≤ intMax

section Block

variable {host : Endian} {x z : SerialXfer}

theorem Sized.requested {g : Grant} {st : RxState} {n r : Int}
    (hx : Sized x)
    (h : auraAsyncExpectBytes g (entering x st) n = .ok (r, z)) : Sized z := by
  obtain ⟨data, rfl, hkeeps, hle⟩ :=
    auraAsyncExpectBytes_keeps (x := entering x st) hx.2 h
  exact ⟨Nat.le_trans hx.1 hkeeps.length_le, hle⟩

theorem Handled.sized {g : Grant} {h : Handler} (hx : Sized x)
    (hz : Handled host g x h z) : Sized z := by
  cases hz with
  | noise | counts | adds | features | ignored => exact hx
  | start _ _ he | length _ _ he | startInit _ _ he => exact hx.requested he

theorem sized_step {p q : Port} {e : SerialEvent} (hp : Sized p.xfer)
    (h : serialStep host p e = .ok q) : Sized q.xfer := by
  rcases serialStep_cases h with ⟨env, rfl, hd⟩ | hs
  · obtain ⟨transferlist, hook, hq⟩ :=
      urpcSerialDiscovery_waits (by have := hp.1; omega) hp.2 hd
    rw [hq]
    exact hp
  · generalize q.xfer = z at hs
    have habsorbed : ∀ {bytes y}, absorbBytes p.xfer bytes = .ok y →
        Sized y := by
      intro bytes y hy
      rw [Sized, (absorbed_of_eq_ok hy).alloc]
      exact hp
    cases hs with
    | nothing | sends => exact hp
    | absorbs hy => exact habsorbed hy
    | fires hy _ hz => exact (handleData_handled hz).sized (habsorbed hy)

end Block

/-! ## Histories of an instance -/

/-- A discovery that `l_urpc_discovery` waits for: what the list held when it
began, what the device reports, and how much of that has not come yet. -/
structure Awaited where
  base : List UrpcObject
  report : Report
  ahead : List UInt8
  deriving DecidableEq

/-- An instance and the discovery its owner waits for, if any. -/
structure History where
  port : Port
  awaited : Option Awaited

/-- A discovery of a device that will report `d`, an event of the instance, or
the return of the transport's discovery to `l_urpc_discovery`. -/
inductive HistoryEvent
  | discovers (env : CallEnv) (d : Report)
  | serial (e : SerialEvent)
  | returns (mem : Bool) (locals : Nat → ArgcacheLocals)

/-- How many bytes an event brings. -/
def brought : SerialEvent → Nat
  | .epollin (.got bytes) _ => bytes.length
  | _ => 0

def historyStep (host : Endian) (h : History) : HistoryEvent → Res History
  | .discovers env d => do
      let port ← urpcSerialDiscovery env h.port
      pure ⟨port, some ⟨h.port.xfer.data.inst.objlist, d, d.bytes⟩⟩
  | .serial e => do
      let port ← serialStep host h.port e
      pure ⟨port, h.awaited.map fun w =>
        { w with ahead := w.ahead.drop (brought e) }⟩
  | .returns mem locals => do
      let s := h.port.xfer.data
      let (inst, _) ← lUrpcDiscovery mem locals s.objcount s.inst
      pure ⟨{ h.port with xfer := { h.port.xfer with
        data := { s with inst } } }, none⟩

/-- What may come while a report is waited for: more of it, no more at a time
than was asked for, with room for every length and every block granted. -/
def Answers (host : Endian) (w : Awaited) (x : SerialXfer) :
    SerialEvent → Prop
  | .epollin (.got bytes) g =>
      bytes <+: w.ahead ∧ (bytes.length : Int) ≤ x.expectBytes ∧
        g.isSome = true ∧ ∀ y ∈ completed x bytes, LengthFits host y
  | .epollin .failed _ | .epollout _ _ => True
  | .call _ _ | .discovery _ => False

instance (host : Endian) (w : Awaited) (x : SerialXfer) :
    ∀ e, Decidable (Answers host w x e)
  | .epollin (.got _) _ =>
      have : DecidablePred (LengthFits host) := fun _ =>
        inferInstanceAs (Decidable (_ → _ → _))
      inferInstanceAs (Decidable (_ ∧ _ ∧ _ ∧ _))
  | .epollin .failed _ | .epollout _ _ => isTrue trivial
  | .call _ _ | .discovery _ => isFalse id

/-- A discovery begins with an empty buffer, and its report can be read; it
returns when the wait loop has seen `state` leave zero. With no report to wait
for, anything may happen. -/
def Scheduled (host : Endian) (h : History) : HistoryEvent → Prop
  | .discovers _ d =>
      h.awaited = none ∧ h.port.xfer.recv.size = 0 ∧ Legible host d
  | .serial (.discovery _) => False
  | .serial e => ∀ w ∈ h.awaited, Answers host w h.port.xfer e
  | .returns _ _ => h.awaited ≠ none ∧ h.port.xfer.data.state ≠ 0

instance (host : Endian) (h : History) : ∀ e, Decidable (Scheduled host h e)
  | .discovers _ _ => inferInstanceAs (Decidable (_ ∧ _ = 0 ∧ _))
  | .serial (.discovery _) => isFalse id
  | .serial (.epollin _ _) | .serial (.epollout _ _) | .serial (.call _ _) =>
      inferInstanceAs (Decidable (∀ w ∈ h.awaited, Answers host w _ _))
  | .returns _ _ => inferInstanceAs (Decidable (_ ∧ _))

/-- What the walk of `l_urpc_discovery` ought to find: the objects reported, as
many as were counted, so that it fills all of the slots and no others. -/
structure TableMatches (s : SerialInstance) (reported : List UrpcObject) :
    Prop where
  objects : s.inst.objlist = reported
  count : s.inst.objlist.length = s.objcount
  fills : ∀ locals, fillLoop locals s.objcount 0 s.inst.objlist
    = reported.zipIdx.mapM fun o => cacheObject (locals o.2) o.1

/-- What is known of a history: the block is of a sensible size, and a report
waited for is being heard. -/
structure Follows (host : Endian) (h : History) : Prop where
  sized : Sized h.port.xfer
  hears : ∀ w, h.awaited = some w → Legible host w.report ∧
    RxInv h.port.xfer ∧ Hearing w.report w.base h.port.xfer w.ahead

section Histories

variable {host : Endian} {h h' : History} {w : Awaited}

/-- A discovery that begins with an empty buffer has the whole report ahead. -/
theorem follows_discovers {env : CallEnv} {d : Report}
    (hsized : Sized h.port.xfer) (hempty : h.port.xfer.recv.size = 0)
    (hread : Legible host d)
    (hstep : historyStep host h (.discovers env d) = .ok h') :
    Follows host h' := by
  rw [historyStep, bind_eq_ok] at hstep
  obtain ⟨port, hport, hstep⟩ := hstep
  cases hstep
  obtain ⟨hge, hmax⟩ := hsized
  obtain ⟨transferlist, hook, hq⟩ :=
    urpcSerialDiscovery_waits (by omega) hmax hport
  refine ⟨by rw [hq]; exact ⟨hge, hmax⟩, fun w hw => ?_⟩
  cases hw
  rw [hq]
  refine ⟨hread, rxInv_restart hge hmax rfl hempty rfl nofun, ?_⟩
  refine hearing_at_rest rfl hempty fun b after hb => .lead rfl ?_
    d.lead_noise hb
  exact ⟨rfl, rfl, (List.append_nil _).symm⟩

/-- An event while a report is waited for. -/
theorem Hearing.step {p q : Port} {e : SerialEvent}
    (hread : Legible host w.report) (hinv : RxInv p.xfer)
    (hx : Hearing w.report w.base p.xfer w.ahead)
    (hguard : Answers host w p.xfer e) (hstep : serialStep host p e = .ok q) :
    RxInv q.xfer ∧
      Hearing w.report w.base q.xfer (w.ahead.drop (brought e)) := by
  cases e with
  | epollin r g =>
      rw [serialStep, bind_eq_ok] at hstep
      obtain ⟨x, hxfer, hstep⟩ := hstep
      cases hstep
      cases r with
      | failed =>
          cases hxfer
          exact ⟨hinv, hx⟩
      | got bytes =>
          obtain ⟨hpre, hle, hg, hlengths⟩ := hguard
          obtain ⟨z, hz, hinv', hx'⟩ :=
            hx.steps hread hinv hpre hle hg hlengths
          cases hxfer.symm.trans hz
          exact ⟨hinv', hx'⟩
  | epollout ws ctl =>
      rw [serialStep, auraAsyncXferHandlerOut, bind_eq_ok] at hstep
      obtain ⟨⟨sent, x, efd⟩, hw, hstep⟩ := hstep
      cases hstep
      obtain ⟨transferlist, pos, hook, rfl⟩ := writeLoop_frame _ _ _ _ _ _ hw
      refine ⟨⟨hinv.alloc_ge, hinv.alloc_le, hinv.fits, hinv.stage⟩, ?_⟩
      cases hx with
      | waits hmore he hpiece hahead => exact .waits hmore he hpiece hahead
      | heard he hstate hcount hlist hahead =>
          exact .heard he hstate hcount hlist hahead
  | call env id | discovery env => exact hguard.elim

theorem follows_step {e : HistoryEvent} (hfollows : Follows host h)
    (hguard : Scheduled host h e) (hstep : historyStep host h e = .ok h') :
    Follows host h' := by
  cases e with
  | discovers env d =>
      obtain ⟨_, hempty, hread⟩ := hguard
      exact follows_discovers hfollows.sized hempty hread hstep
  | serial e =>
      rw [historyStep, bind_eq_ok] at hstep
      obtain ⟨port, hport, hstep⟩ := hstep
      cases hstep
      refine ⟨sized_step hfollows.sized hport, fun w hw => ?_⟩
      obtain ⟨w', hw', rfl⟩ := Option.map_eq_some_iff.mp hw
      obtain ⟨hread, hinv, hhears⟩ := hfollows.hears w' hw'
      have hanswers : Answers host w' h.port.xfer e := by
        cases e with
        | epollin | epollout | call => exact hguard w' hw'
        | discovery => exact hguard.elim
      exact ⟨hread, hhears.step hread hinv hanswers hport⟩
  | returns mem locals =>
      rw [historyStep, bind_eq_ok] at hstep
      obtain ⟨⟨inst, table⟩, _, hstep⟩ := hstep
      cases hstep
      exact ⟨hfollows.sized, nofun⟩

theorem tableMatches_of_found {d : Report} {s : SerialInstance}
    (hcount : s.objcount = d.found.length) (hlist : s.inst.objlist = d.found) :
    TableMatches s d.found := by
  refine ⟨hlist, by rw [hlist, hcount], fun locals => ?_⟩
  rw [hlist]
  exact fillLoop_eq_mapM locals _ _ 0 (by omega)

/-- In every history of an instance, while a discovery is waited for: every
read that brings more of the report goes through; the discovery returns exactly
when all of it has come; and then the list holds the objects reported, as many
as counted, exactly when it was empty when the discovery began. Otherwise the
loop of `l_urpc_discovery` leaves its slots. -/
theorem table_matches_iff {p : Port} (hopen : Opened p)
    (hrun : Runs (historyStep host) (Scheduled host) ⟨p, none⟩ h)
    (hw : h.awaited = some w) :
    (∀ bytes g, Answers host w h.port.xfer (.epollin (.got bytes) g) →
      ∃ q, serialStep host h.port (.epollin (.got bytes) g) = .ok q) ∧
    (h.port.xfer.data.state ≠ 0 ↔ w.ahead = []) ∧
    (w.ahead = [] →
      (TableMatches h.port.xfer.data w.report.found ↔ w.base = []) ∧
      (w.base ≠ [] → ∀ locals os, fillLoop locals h.port.xfer.data.objcount 0
        h.port.xfer.data.inst.objlist ≠ .ok os)) := by
  have hfollows : Follows host h := by
    refine hrun.invariant
      (fun _ _ _ hs hguard hstep => follows_step hs hguard hstep) ⟨?_, nofun⟩
    exact ⟨Nat.le_of_eq hopen.buffer.symm, hopen.buffer ▸ by decide⟩
  obtain ⟨hread, hinv, hhears⟩ := hfollows.hears w hw
  refine ⟨fun bytes g hguard => ?_, hhears.state_ne_zero_iff, fun hdone => ?_⟩
  · obtain ⟨hpre, hle, hg, hlengths⟩ := hguard
    obtain ⟨z, hz, _⟩ := hhears.steps hread hinv hpre hle hg hlengths
    exact ⟨{ h.port with xfer := z }, by rw [serialStep, hz]; rfl⟩
  · obtain ⟨hcount, hlist⟩ : h.port.xfer.data.objcount = w.report.found.length ∧
        h.port.xfer.data.inst.objlist = w.base ++ w.report.found := by
      cases hhears with
      | waits hmore _ _ hahead =>
          rw [hdone, eq_comm, List.append_eq_nil_iff] at hahead
          exact absurd hahead.1 hmore
      | heard _ _ hcount hlist => exact ⟨hcount, hlist⟩
    refine ⟨⟨fun hmatches => ?_, fun hempty => ?_⟩, fun hbase locals os hos => ?_⟩
    · have hlen := hmatches.count
      rw [hlist, hcount, List.length_append] at hlen
      exact List.length_eq_zero_iff.mp (by omega)
    · exact tableMatches_of_found hcount (by rw [hlist, hempty]; rfl)
    · have hpos := List.length_pos_iff.mpr hbase
      have hroom := (fillLoop_eq_ok hos).2.1
        (by rw [hlist]; exact List.append_ne_nil_of_left_ne_nil hbase _)
      rw [hlist, hcount, List.length_append] at hroom
      omega

end Histories

/-- A device that describes `k`. -/
def reportK : Report where
  width := 1
  idWidth := 1
  order := .little
  etag := chr 'l'
  a := 0
  b := 0
  lead := [7]
  objects := [([], {
    flags := 1, ident := [0], name := [chr 'k']
    args := formatOf [.u16, .u8], reply := formatOf [.u8, .u16]
    trailing := []
    name_clean := by decide, args_clean := by decide
    reply_clean := by decide })]
  gap := [9]
  last := 7
  declared := .inl rfl
  idents := by decide
  lengths := by decide
  lead_noise := by decide
  object_noise := by decide
  gap_noise := by decide

/-- It is asked once, and its report comes with noise in two places. -/
def firstDiscovery : List HistoryEvent :=
  .discovers generousEnv reportK
    :: (reads [[7], [magicStart], [1, 1, chr 'l'], [0, 0], [magicStart], [18],
      [1, 0, chr 'k', 0, chr '2', chr 'u', chr ';', chr '1', chr 'u', chr ';'],
      [0, chr '1', chr 'u', chr ';', chr '2', chr 'u', chr ';', 0], [9],
      [magicStart], [1], [7]]).map .serial

/-- And once more, after its object was taken in. -/
def secondDiscovery : List HistoryEvent :=
  firstDiscovery ++ .returns true (fun _ => ⟨(0, 0), (0, 0)⟩)
    :: firstDiscovery

/-- The history of an opened instance after some events. -/
def historyAfter (events : List HistoryEvent) : History :=
  afterwards (historyStep .little) ⟨openedPort, none⟩ events

/-- The one object fills the one slot. -/
theorem table_matches_first :
    TableMatches (historyAfter firstDiscovery).port.xfer.data
      reportK.found :=
  have hrun : Runs (historyStep .little) (Scheduled .little)
      ⟨openedPort, none⟩ (historyAfter firstDiscovery) :=
    Runs.afterwards (l := firstDiscovery) (by decide +kernel)
  ((table_matches_iff (w := ⟨[], reportK, []⟩) opened_openedPort hrun
    (by decide +kernel)).2.2 rfl).1.mpr rfl

/-- The second discovery counts one object, and the list holds two. -/
theorem table_overrun :
    ¬ ∀ (host : Endian) (p : Port) (h : History) (w : Awaited), Opened p →
      Runs (historyStep host) (Scheduled host) ⟨p, none⟩ h →
      h.awaited = some w → h.port.xfer.data.state ≠ 0 →
      TableMatches h.port.xfer.data w.report.found := by
  intro hall
  have hrun : Runs (historyStep .little) (Scheduled .little)
      ⟨openedPort, none⟩ (historyAfter secondDiscovery) :=
    Runs.afterwards (l := secondDiscovery) (by decide +kernel)
  obtain ⟨w, hw⟩ : ∃ w, (historyAfter secondDiscovery).awaited = some w :=
    Option.isSome_iff_exists.mp (by decide +kernel)
  have hmatches := hall .little openedPort _ w opened_openedPort hrun hw
    (by decide +kernel)
  have hcount := hmatches.count
  revert hcount
  decide +kernel

end Aura.Proofs
