import Aura.Proofs.CallFrame
import Aura.Proofs.Packets
import Aura.Proofs.Transitions

/-!
# Discovery

A device answers a discovery with a feature packet, a packet for every object
and one packet with a body of a single byte. What the receive machine makes of
such an answer is the list of its objects, and it says so, by a `state` other
than zero, at the last byte and no earlier (`discovery_exact`).
-/

namespace Aura.Proofs

open Aura.Lib Aura.Ref

/-! ## Objects on the line -/

/-- An object as a device describes it. -/
structure DeviceObject where
  flags : UInt8
  id : UInt8
  name : List UInt8
  args : List UInt8
  reply : List UInt8
  trailing : List UInt8
  name_clean : 0 ∉ name
  args_clean : 0 ∉ args
  reply_clean : 0 ∉ reply
  short : name.length + args.length + reply.length + trailing.length + 5 ≤ 254

namespace DeviceObject

def body (o : DeviceObject) : List UInt8 :=
  o.flags :: o.id :: o.name ++ [0] ++ o.args ++ [0] ++ o.reply ++ [0]
    ++ o.trailing

def lengthByte (o : DeviceObject) : UInt8 := toByte o.body.length

def bytes (o : DeviceObject) : List UInt8 :=
  magicStart :: o.lengthByte :: o.body

/-- The object a host should have of it. -/
def object (o : DeviceObject) : UrpcObject :=
  { flags := o.flags
    name := dupNonEmpty o.name
    args := dupNonEmpty o.args
    acache := none
    reply := dupNonEmpty o.reply
    rcache := none }

variable (o : DeviceObject)

theorem length_body : o.body.length
    = o.name.length + o.args.length + o.reply.length + o.trailing.length
      + 5 := by
  simp only [body, List.cons_append, List.length_cons, List.length_append,
    List.length_nil]
  omega

theorem lengthByte_toNat : o.lengthByte.toNat = o.body.length := by
  have hshort := o.short
  have hbody := o.length_body
  rw [lengthByte, toByte, UInt8.toNat_ofNat']
  omega

end DeviceObject

/-- The walk finds the three strings, whatever the buffer holds in front of the
description and behind it. -/
theorem parseObject_strings {before rest name args reply : List UInt8}
    (flags id : UInt8) (hname : 0 ∉ name) (hargs : 0 ∉ args)
    (hreply : 0 ∉ reply) :
    parseObject (before ++ (flags :: id :: name ++ [0] ++ args ++ [0] ++ reply
        ++ [0] ++ rest)) before.length
      = .ok { flags
              name := dupNonEmpty name
              args := dupNonEmpty args
              acache := none
              reply := dupNonEmpty reply
              rcache := none } := by
  generalize hdata : before ++ (flags :: id :: name ++ [0] ++ args ++ [0]
    ++ reply ++ [0] ++ rest) = data
  have hcstr : ∀ (front behind : List UInt8) {str : List UInt8} {off : Nat},
      0 ∉ str → front ++ (str ++ [0] ++ behind) = data → front.length = off →
      cstrAt data off = .ok str := by
    intro front behind str off hclean hsplit hoff
    rw [← hsplit, ← hoff]
    exact cstrAt_append hclean front behind
  have hname' : cstrAt data (before.length + 2) = .ok name :=
    hcstr (before ++ [flags, id])
      (args ++ [0] ++ reply ++ [0] ++ rest) hname
      (by rw [← hdata]; simp)
      (by simp only [List.length_append, List.length_cons, List.length_nil])
  have hargs' : cstrAt data (before.length + 2 + name.length + 1)
      = .ok args :=
    hcstr (before ++ [flags, id] ++ name ++ [0])
      (reply ++ [0] ++ rest) hargs (by rw [← hdata]; simp)
      (by simp only [List.length_append, List.length_cons, List.length_nil])
  have hreply' : cstrAt data
      (before.length + 2 + name.length + 1 + args.length + 1) = .ok reply :=
    hcstr (before ++ [flags, id] ++ name ++ [0] ++ args ++ [0]) rest hreply
      (by rw [← hdata]; simp)
      (by simp only [List.length_append, List.length_cons, List.length_nil])
  have hflags : loadByte data before.length = .ok flags := by
    rw [← hdata]
    exact loadByte_eq_ok.mpr (by simp)
  have hid : loadByte data (before.length + 1) = .ok id := by
    rw [← hdata]
    exact loadByte_eq_ok.mpr (by simp)
  rw [parseObject, hflags, ok_bind, hid, ok_bind, hname', ok_bind, hargs',
    ok_bind, hreply']
  rfl

/-- An object is read off its body, whatever the buffer held behind it. -/
theorem DeviceObject.parseObject_body (o : DeviceObject)
    (stale : List UInt8) :
    parseObject (magicStart :: o.lengthByte :: o.body ++ stale) 2
      = .ok o.object := by
  have hparse := @parseObject_strings [magicStart, o.lengthByte]
    (o.trailing ++ stale) _ _ _ o.flags o.id o.name_clean o.args_clean
    o.reply_clean
  rwa [show [magicStart, o.lengthByte] ++ _
    = magicStart :: o.lengthByte :: o.body ++ stale by simp [DeviceObject.body]]
    at hparse


/-! ## The answer, piece by piece -/

section Answer

variable (host : Endian) (x : SerialXfer) {s : SerialInstance}
  {stale : List UInt8}

/-- The feature packet, declaring sizes and ids of one byte. -/
def featureBytes (etag a b : UInt8) : List UInt8 :=
  [magicStart, 1, 1, etag, a, b]

theorem feeds_features (etag a b : UInt8) (hroom : 6 ≤ stale.length)
    (hmax : (stale.length : Int) ≤ intMax) :
    ∃ swap log, (receiver host none).Feeds (PieceFits host)
      (idle x .discoveryInit s stale) (featureBytes etag a b)
      (idle x .packets { s with szSz := 1, idSz := 1, swap }
        (featureBytes etag a b ++ stale.drop 6)) log := by
  have hone : 1 + (stale.drop 1).length = stale.length :=
    length_drop_cons (by omega)
  have hsix : 6 + (stale.drop 6).length = stale.length :=
    length_drop_cons hroom
  have hstart : (receiver host none).Feeds (PieceFits host)
      (idle x .discoveryInit s stale) [magicStart]
      (stage x .discoveryInit s .discovery 5 [magicStart] (stale.drop 1))
      [⟨.discoveryInit, .waitStart, [magicStart]⟩] := by
    apply @feeds_piece _ _ _ _ _ [] stale [magicStart] _ [magicStart]
      (stale.drop 1) Nat.one_pos (by rw [List.length_singleton]; omega) rfl rfl
    · exact @pieceFits_stage _ _ _ _ _ _ _ _ 5 rfl (by omega)
        (by rw [List.length_singleton, hone]; exact hmax)
    · rw [handleData_init_waitStart rfl]
      exact @awaitStart_start x _ none .discoveryInit _ .discovery 5
        (by omega) (by rw [hone]; exact hmax)
  let swap := (host = .little && etag = chr 'b')
    || (host = .big && etag = chr 'l')
  have hrest : (receiver host none).Feeds (PieceFits host)
      (stage x .discoveryInit s .discovery 5 [magicStart] (stale.drop 1))
      [1, 1, etag, a, b]
      (idle x .packets { s with szSz := 1, idSz := 1, swap := swap }
        (featureBytes etag a b ++ stale.drop 6))
      [⟨.discoveryInit, .discovery, featureBytes etag a b⟩] := by
    apply @feeds_piece _ _ _ _ _ [magicStart] (stale.drop 1)
      [1, 1, etag, a, b] _ (featureBytes etag a b) (stale.drop 6)
      (Nat.succ_pos _)
      (by simp only [List.length_cons, List.length_nil]; omega) rfl
      List.drop_drop
    · apply pieceFits_quiet rfl
      simp only [featureBytes, List.length_cons, List.length_nil]
      omega
    · rfl
  exact ⟨swap, _, hstart.trans hrest⟩

/-- An instance that has found some more objects. -/
def found (s : SerialInstance) (os : List UrpcObject) : SerialInstance :=
  { s with
    objcount := s.objcount + os.length
    inst := { s.inst with objlist := s.inst.objlist ++ os } }

theorem found_found (s : SerialInstance) (os os' : List UrpcObject) :
    found (found s os) os' = found s (os ++ os') := by
  simp only [found, List.append_assoc, List.length_append, Nat.add_assoc]

/-- An object packet, with noise in front, puts its object at the end of the
list. -/
theorem feeds_object (o : DeviceObject) {gap : List UInt8}
    (hgap : magicStart ∉ gap) (hsz : s.szSz = 1) (hstate : s.state = 0)
    (hroom : 256 ≤ stale.length) (hmax : (stale.length : Int) ≤ intMax) :
    ∃ stale' log, stale'.length = stale.length ∧
      (receiver host none).Feeds (PieceFits host) (idle x .packets s stale)
        (gap ++ o.bytes)
        (idle x .packets (found s [o.object]) stale') log := by
  have hbody := o.length_body
  have hshort := o.short
  obtain ⟨stale₁, log₁, hlen₁, _, hfeeds₁⟩ :=
    @feeds_noise host x s .packets gap hgap stale (by omega) hmax
  have hroom₁ : 2 + o.body.length ≤ stale₁.length := by omega
  refine ⟨o.bytes ++ stale₁.drop (2 + o.body.length), _, ?_,
    hfeeds₁.trans (feeds_packet host x hsz o.lengthByte_toNat (by omega)
      hroom₁ (by omega) ?_)⟩
  · rw [List.length_append, List.length_drop, DeviceObject.bytes,
      List.length_cons, List.length_cons]
    omega
  · have hnum : numberToInt host (o.bytes ++ stale₁.drop (2 + o.body.length)) 1
        s.szSz = .ok o.lengthByte.toNat := by
      rw [hsz]
      exact numberToInt_head host o.lengthByte _
    have hone : cInt o.lengthByte.toNat ≠ 1 := by
      rw [cInt_byte, o.lengthByte_toNat]
      omega
    have hoff : (1 + s.szSz).toNat = 2 := by
      rw [hsz]
      rfl
    show getBody host (stage x .packets s .getBody 0 o.bytes
      (stale₁.drop (2 + o.body.length))) = _
    rw [getBody_of_object hstate hnum hone (show 0 ≤ 1 + s.szSz by omega)]
    show Except.map _ (parseObject (o.bytes ++ _) (1 + s.szSz).toNat) = _
    rw [hoff, DeviceObject.bytes, o.parseObject_body]
    rfl

theorem feeds_objects {objects : List (List UInt8 × DeviceObject)}
    (hgaps : ∀ p ∈ objects, magicStart ∉ p.1) (hsz : s.szSz = 1)
    (hstate : s.state = 0) (hroom : 256 ≤ stale.length)
    (hmax : (stale.length : Int) ≤ intMax) :
    ∃ stale' log, stale'.length = stale.length ∧
      (receiver host none).Feeds (PieceFits host) (idle x .packets s stale)
        (objects.flatMap fun p => p.1 ++ p.2.bytes)
        (idle x .packets (found s (objects.map (·.2.object))) stale')
        log := by
  induction objects generalizing s stale with
  | nil =>
      refine ⟨stale, [], rfl, ?_⟩
      rw [List.map_nil, found, List.append_nil]
      exact Collector.Feeds.nil _ _
  | cons p objects ih =>
      obtain ⟨gap, o⟩ := p
      obtain ⟨stale₁, log₁, hlen₁, hfeeds₁⟩ := feeds_object host x o
        (hgaps _ (List.mem_cons_self ..)) hsz hstate hroom hmax
      obtain ⟨stale₂, log₂, hlen₂, hfeeds₂⟩ := @ih (found s [o.object])
        stale₁ (fun q hq => hgaps q (List.mem_cons_of_mem _ hq)) hsz hstate
        (by omega) (by omega)
      have hall := hfeeds₁.trans hfeeds₂
      rw [found_found] at hall
      exact ⟨stale₂, _, by omega, hall⟩

end Answer

/-! ## The whole answer -/

/-- What a device answers a discovery with. Noise may stand in front of each
packet. -/
structure DeviceAnswer where
  lead : List UInt8
  etag : UInt8
  a : UInt8
  b : UInt8
  objects : List (List UInt8 × DeviceObject)
  gap : List UInt8
  last : UInt8
  lead_noise : magicStart ∉ lead
  object_noise : ∀ p ∈ objects, magicStart ∉ p.1
  gap_noise : magicStart ∉ gap

namespace DeviceAnswer

/-- All of it but the last byte. -/
def opening (d : DeviceAnswer) : List UInt8 :=
  d.lead ++ featureBytes d.etag d.a d.b
    ++ (d.objects.flatMap fun p => p.1 ++ p.2.bytes)
    ++ d.gap ++ [magicStart, 1]

def bytes (d : DeviceAnswer) : List UInt8 := d.opening ++ [d.last]

/-- The objects a host should find. -/
def found (d : DeviceAnswer) : List UrpcObject := d.objects.map (·.2.object)

end DeviceAnswer

/-- What the whole answer leaves behind in a receiver that had found `os`
before, `n` of them in this discovery. -/
structure Found (d : DeviceAnswer) (os : List UrpcObject) (n : Nat)
    (y : SerialXfer) : Prop where
  state : y.data.state = 1
  objcount : y.data.objcount = n + d.objects.length
  objlist : y.data.inst.objlist = os ++ d.found
  szSz : y.data.szSz = 1
  idSz : y.data.idSz = 1
  handler : y.handleData = .packets

/-- Up to the last byte the receiver only waits; with it, all is found. -/
theorem feeds_answer (host : Endian) (x : SerialXfer) {s : SerialInstance}
    {stale : List UInt8} (d : DeviceAnswer) (hstate : s.state = 0)
    (hroom : 256 ≤ stale.length) (hmax : (stale.length : Int) ≤ intMax) :
    (∃ y log, y.data.state = 0 ∧
      (receiver host none).Feeds (PieceFits host)
        (idle x .discoveryInit s stale) d.opening y log) ∧
    ∃ y log, Found d s.inst.objlist s.objcount y ∧
      (receiver host none).Feeds (PieceFits host)
        (idle x .discoveryInit s stale) d.bytes y log := by
  obtain ⟨stale₁, log₁, hlen₁, _, hlead⟩ :=
    @feeds_noise host x s .discoveryInit d.lead d.lead_noise stale (by omega)
      hmax
  obtain ⟨swap, log₂, hfeatures⟩ := @feeds_features host x s stale₁ d.etag d.a
    d.b (by omega) (by omega)
  generalize hstale₂ : featureBytes d.etag d.a d.b ++ stale₁.drop 6 = stale₂
    at hfeatures
  have hlen₂ : stale₂.length = stale.length := by
    rw [← hstale₂, List.length_append, List.length_drop]
    simp only [featureBytes, List.length_cons, List.length_nil]
    omega
  obtain ⟨stale₃, log₃, hlen₃, hobjects⟩ := @feeds_objects host x
    { s with szSz := 1, idSz := 1, swap } stale₂ d.objects d.object_noise rfl
    hstate (by omega) (by omega)
  obtain ⟨stale₄, log₄, hlen₄, _, hgap⟩ :=
    @feeds_noise host x (found { s with szSz := 1, idSz := 1, swap } d.found)
      .packets d.gap d.gap_noise stale₃ (by omega) (by omega)
  have hsofar := ((hlead.trans hfeatures).trans hobjects).trans hgap
  refine ⟨⟨_, _, ?_, hsofar.trans (feeds_head host x rfl 1 (by
    show 2 + 1 ≤ _
    omega) (by omega))⟩, ?_⟩
  · exact hstate
  · have hlast := @feeds_counted host x
      (found { s with szSz := 1, idSz := 1, swap } d.found) rfl 1 [d.last]
      stale₄ (.inr rfl) rfl Nat.one_pos (by
        rw [List.length_singleton]
        omega) (by omega)
      (show -intMax - 1 ≤ s.state by unfold intMax; omega)
      (show s.state + 1 ≤ intMax by unfold intMax; omega)
    have hall := hsofar.trans hlast
    rw [show d.bytes = d.lead ++ featureBytes d.etag d.a d.b
      ++ (d.objects.flatMap fun p => p.1 ++ p.2.bytes) ++ d.gap
      ++ [magicStart, 1, d.last] by
        simp [DeviceAnswer.bytes, DeviceAnswer.opening]]
    refine ⟨_, _, ⟨?_, ?_, rfl, rfl, rfl, rfl⟩, hall⟩
    · show s.state + 1 = 1
      omega
    · show s.objcount + d.found.length = _
      rw [DeviceAnswer.found, List.length_map]

/-- An instance nothing has been received on. -/
structure Opened (p : Port) : Prop where
  buffer : p.xfer.recv.alloc = 256
  empty : p.xfer.recv.size = 0
  objlist : p.xfer.data.inst.objlist = []

/-- The same for an instance that has just sent the request. -/
theorem discovery_feeds {host : Endian} {env : CallEnv} {p p' : Port}
    (d : DeviceAnswer) (hp : Opened p)
    (hdiscovery : urpcSerialDiscovery env p = .ok p') :
    (∃ y log, y.data.state = 0 ∧
      (receiver host none).Feeds (PieceFits host) p'.xfer d.opening y log) ∧
    ∃ y log, Found d [] 0 y ∧
      (receiver host none).Feeds (PieceFits host) p'.xfer d.bytes y log := by
  have halloc : (p.xfer.recv.alloc : Int) ≤ intMax := by
    rw [hp.buffer]
    decide
  obtain ⟨transferlist, hook, hstart⟩ := urpcSerialDiscovery_waits
    (by rw [hp.buffer]; decide) halloc hdiscovery
  have hidle : p'.xfer
      = idle p'.xfer .discoveryInit p'.xfer.data p'.xfer.recv.data := by
    have hidle := @eq_idle p'.xfer (by rw [hstart]) (by rw [hstart])
      (by rw [hstart]; exact hp.empty)
    rwa [show p'.xfer.handleData = .discoveryInit by rw [hstart]] at hidle
  have hbuffer : p'.xfer.recv.data.length = 256 := by
    rw [hstart]
    exact hp.buffer
  have hanswer := @feeds_answer host p'.xfer p'.xfer.data p'.xfer.recv.data d
    (by rw [hstart]) (by omega) (by rw [hbuffer]; decide)
  have hlist : p'.xfer.data.inst.objlist = [] := by
    rw [hstart]
    exact hp.objlist
  have hcount : p'.xfer.data.objcount = 0 := by rw [hstart]
  rwa [← hidle, hlist, hcount] at hanswer

theorem receive_answer {host : Endian} {env : CallEnv} {p p' : Port}
    {d : DeviceAnswer} {rs : List SerialRead} {y : SerialXfer}
    {log : List Call} (hp : Opened p)
    (hdiscovery : urpcSerialDiscovery env p = .ok p')
    (hrs : Delivered host p'.xfer rs) (hwhole : bytesOf rs = d.bytes)
    (hy : receive host p'.xfer rs = .ok (y, log)) : Found d [] 0 y := by
  obtain ⟨z, log', hfound, hall⟩ := (discovery_feeds d hp hdiscovery).2
  rw [← hwhole] at hall
  cases hy.symm.trans ((receive_eq_feed hrs hall.along).trans hall.1)
  exact hfound

/-- Discovery is exact: after any part of the answer, however it arrives,
`state` is zero until the last byte is there, and then the objects found are
the objects described, in order. -/
theorem discovery_exact {host : Endian} {env : CallEnv} {p p' : Port}
    {d : DeviceAnswer} {rs : List SerialRead} (hp : Opened p)
    (hdiscovery : urpcSerialDiscovery env p = .ok p')
    (hrs : Delivered host p'.xfer rs) (hpart : bytesOf rs <+: d.bytes) :
    ∃ y log, receive host p'.xfer rs = .ok (y, log) ∧
      (y.data.state ≠ 0 ↔ bytesOf rs = d.bytes) ∧
      (bytesOf rs = d.bytes →
        y.data.objcount = d.objects.length ∧
        y.data.inst.objlist = d.objects.map (·.2.object)) := by
  obtain ⟨⟨y, log, hzero, hopening⟩, z, log', hfound, hall⟩ :=
    @discovery_feeds host env p p' d hp hdiscovery
  rcases List.prefix_concat_iff.mp hpart with hfull | ⟨rest, hrest⟩
  · have hfull : bytesOf rs = d.bytes := hfull
    rw [← hfull] at hall
    refine ⟨z, log', (receive_eq_feed hrs hall.along).trans hall.1, ?_, ?_⟩
    · rw [hfound.state]
      exact iff_of_true (by decide) hfull
    · intro _
      exact ⟨hfound.objcount.trans (Nat.zero_add _), hfound.objlist⟩
  · -- the counter cannot have risen and fallen again before the last byte
    have hne : bytesOf rs ≠ d.bytes := by
      intro hsame
      have hlen := congrArg List.length hrest
      rw [hsame, DeviceAnswer.bytes] at hlen
      simp only [List.length_append, List.length_singleton] at hlen
      omega
    rw [← hrest] at hopening
    have hfeed := hopening.1
    rw [Collector.feed_append] at hfeed
    obtain ⟨⟨u, log₁⟩, hu, hfeed⟩ := bind_eq_ok.mp hfeed
    obtain ⟨⟨v, log₂⟩, hv, hfeed⟩ := bind_eq_ok.mp hfeed
    cases hfeed
    have hrose : p'.xfer.data.state ≤ u.data.state := feed_state_le hu
    have hstays : u.data.state ≤ y.data.state := feed_state_le hv
    have hpending : u.data.state = 0 := by
      obtain ⟨_, _, _, _, _, hp'⟩ := urpcSerialDiscovery_eq_ok hdiscovery
      rw [show p'.xfer.data.state = 0 by rw [hp']] at hrose
      omega
    refine ⟨u, log₁,
      (receive_eq_feed hrs hopening.along.of_append).trans hu, ?_, ?_⟩
    · exact iff_of_false (not_not.mpr hpending) hne
    · exact fun hsame => absurd hsame hne

/-- An instance as `urpc_serial_open` leaves it. -/
def openedPort : Port :=
  { xfer :=
      { transferlist := [], pos := 0, expectBytes := 0
        recv := ⟨List.replicate 256 0, 0⟩
        hook := ⟨0, ⟨true, false⟩⟩
        data :=
          { swap := false, idSz := 0, szSz := 0, rxstate := .waitStart
            state := 0, objcount := 0, inst := ⟨[], []⟩ }
        handleData := .packets }
    efd := fun _ => none }

theorem opened_openedPort : Opened openedPort :=
  ⟨by decide +kernel, rfl, rfl⟩

/-- Surroundings that grant everything. -/
def generousEnv : CallEnv :=
  { L := callStack [], mem := some fun _ => 0, grants := fun _ => some fun _ => 0
    fuel := 0, ctl := true, node := true }

/-- Reads in generous surroundings. -/
def reads (pieces : List (List UInt8)) : List SerialEvent :=
  pieces.map fun bytes => .epollin (.got bytes) (some fun _ => 0)

/-- The instance waiting for an answer. -/
def waitingPort : Port :=
  { xfer := { openedPort.xfer with
      transferlist := [⟨discoveryRequest, 4⟩]
      hook := ⟨0, ⟨true, true⟩⟩
      expectBytes := 1
      handleData := .discoveryInit }
    efd := fun fd => if fd = 0 then some ⟨true, true⟩ else none }

/-- One object, named `f` and without arguments or reply. -/
def answerF : DeviceAnswer :=
  { lead := [0], etag := chr 'l', a := 0, b := 0
    objects := [([magicStop],
      { flags := 1, id := 0, name := [chr 'f'], args := [], reply := []
        trailing := [magicStart], name_clean := by decide
        args_clean := by decide, reply_clean := by decide
        short := by decide })]
    gap := [], last := 7, lead_noise := by decide
    object_noise := by decide, gap_noise := by decide }

/-- The reads that bring it whole. -/
def readsF : List SerialRead :=
  [([0] : List UInt8), [magicStart], [1, 1, chr 'l', 0], [0], [magicStop],
    [magicStart], [7], [1, 0, chr 'f', 0, 0], [0, magicStart], [magicStart],
    [1], [7]].map fun bytes => (.got bytes, none)

set_option maxRecDepth 4000 in
theorem urpcSerialDiscovery_openedPort :
    urpcSerialDiscovery generousEnv openedPort = .ok waitingPort := rfl

theorem discovery_exact_f :
    ∃ y log, receive .little waitingPort.xfer readsF = .ok (y, log) ∧
      (y.data.state ≠ 0 ↔ bytesOf readsF = answerF.bytes) ∧
      (bytesOf readsF = answerF.bytes →
        y.data.objcount = answerF.objects.length ∧
        y.data.inst.objlist = answerF.objects.map (·.2.object)) :=
  discovery_exact (d := answerF) opened_openedPort
    urpcSerialDiscovery_openedPort (by decide +kernel) (by decide +kernel)

end Aura.Proofs
