import Aura.Proofs.Modes
import Aura.Proofs.Staged

/-!
# What is there and what is owed

The two handlers and the transfer layer each change some of `size`,
`expect_bytes` and `rxstate`, now through `aura_async_expect_bytes`, now by
hand. What they keep together: in every state of a packet, what has been
received of the piece that is waited for and what is still expected add up to
its length (`accounting`). The handler of packets is covered by its stages; of
the feature packet a little more has to be known (`Announcement`).
-/

namespace Aura.Proofs

open Aura.Lib Aura.Ref

/-! ## Instances with any buffer -/

/-- An instance nothing has been received on, with a receive buffer of at
least the size `urpc_serial_open` asks for. -/
structure Unheard (p : Port) : Prop where
  alloc_ge : 256 ≤ p.xfer.recv.alloc
  alloc_le : (p.xfer.recv.alloc : Int) ≤ intMax
  empty : p.xfer.recv.size = 0

theorem Opened.unheard {p : Port} (h : Opened p) : Unheard p where
  alloc_ge := Nat.le_of_eq h.buffer.symm
  alloc_le := h.buffer ▸ (by decide)
  empty := h.empty

/-- Such an instance from its first discovery on. Of all that can happen to it
happens what `guard` admits. -/
inductive LivesUnder (host : Endian) (guard : Port → SerialEvent → Prop) :
    Port → Prop
  | discovers {env : CallEnv} {p q : Port} (hp : Unheard p)
      (h : urpcSerialDiscovery env p = .ok q) : LivesUnder host guard q
  | steps {p q : Port} {e : SerialEvent} (hp : LivesUnder host guard p)
      (hguard : guard p e) (hasked : ReadsReturn p e)
      (h : serialStep host p e = .ok q) : LivesUnder host guard q
  | fills {p : Port} (hp : LivesUnder host guard p) (inst : UrpcInstance) :
      LivesUnder host guard
        { p with xfer := { p.xfer with data := { p.xfer.data with inst } } }

section Lives

variable {host : Endian} {guard : Port → SerialEvent → Prop} {p q : Port}

theorem LivesUnder.runs (h : LivesUnder host guard p)
    (hrun : Runs (serialStep host) (fun p e => guard p e ∧ ReadsReturn p e)
      p q) : LivesUnder host guard q :=
  hrun.invariant (fun _ _ _ hs hg hstep => .steps hs hg.1 hg.2 hstep) h

theorem Unheard.discovers {env : CallEnv} (hp : Unheard p)
    (h : urpcSerialDiscovery env p = .ok q) :
    ∃ transferlist hook, q.xfer = discovering p.xfer transferlist hook :=
  urpcSerialDiscovery_waits (Nat.le_trans (by decide) hp.alloc_ge) hp.alloc_le h

theorem LivesUnder.staged (h : LivesUnder host guard p) :
    Staged host p.xfer := by
  induction h with
  | discovers hp h =>
      obtain ⟨transferlist, hook, hq⟩ := hp.discovers h
      rw [hq]
      exact ⟨hp.alloc_ge, hp.alloc_le, hp.empty ▸ Nat.zero_le _,
        .announce rfl rfl rfl⟩
  | steps _ _ hasked h ih => exact staged_step ih hasked h
  | fills _ inst ih => exact ih.congr rfl rfl rfl rfl rfl

end Lives

/-! ## The feature packet -/

/-- Where a receiver is in the feature packet, once it is the first thing that
is received. -/
inductive Announcement (x : SerialXfer) : Prop
  | packets (hh : x.handleData = .packets)
  | awaits (hh : x.handleData = .discoveryInit)
      (hs : x.data.rxstate = .waitStart) (hsize : x.recv.size = 0)
      (he : x.expectBytes = 1)
  | features {w : List UInt8} (hh : x.handleData = .discoveryInit)
      (hs : x.data.rxstate = .discovery)
      (hw : x.recv.payload = magicStart :: w)
      (hsum : (x.recv.size : Int) + x.expectBytes = 6)
      (hpos : 0 < x.expectBytes)

section Announcement

variable {host : Endian} {x y z : SerialXfer} {bytes : List UInt8}

/-- What a piece holds and what it lacks changes only by the bytes read. -/
theorem Absorbed.sum (hx : x.recv.size ≤ x.recv.alloc)
    (hy : Absorbed x bytes y) : (y.recv.size : Int) + y.expectBytes
      = x.recv.size + x.expectBytes := by
  have hsize := hy.size hx
  have he := hy.expectBytes
  omega

theorem Announcement.absorbs (h : Announcement x)
    (hinside : x.recv.size ≤ x.recv.alloc) (hasked : ReadReturns x bytes)
    (hy : Absorbed x bytes y) (hmore : y.expectBytes ≠ 0) :
    Announcement y := by
  have hsize := hy.size hinside
  have he := hy.expectBytes
  cases h with
  | packets hh => exact .packets (hy.handleData.trans hh)
  | awaits hh hs hempty hone =>
      have hle := hasked.le (by omega) (by rw [hone]; decide)
      exact .awaits (hy.handleData.trans hh) (by rw [hy.data, hs]) (by omega)
        (by omega)
  | features hh hs hw hsum hpos =>
      have hle := hasked.le (by omega) (by unfold intMax; omega)
      exact .features (hy.handleData.trans hh) (by rw [hy.data, hs])
        (by rw [hy.payload, hw, List.cons_append])
        ((hy.sum hinside).trans hsum) (by omega)

theorem Announcement.fires {g : Grant} (h : Announcement x)
    (hinside : x.recv.size ≤ x.recv.alloc)
    (hmax : (x.recv.alloc : Int) ≤ intMax) (hy : Absorbed x bytes y)
    (hzero : y.expectBytes = 0)
    (hz : handleData host g y.handleData y = .ok z) : Announcement z := by
  cases h with
  | packets hh =>
      have hh' := hy.handleData.trans hh
      rw [hh'] at hz
      exact .packets ((handleData_handled hz).lost hh').1
  | awaits hh hs hempty hone =>
      have hh' := hy.handleData.trans hh
      have hs' : y.data.rxstate = .waitStart := by rw [hy.data, hs]
      have hsize : y.recv.size = 1 := by
        have hsum := hy.sum hinside
        omega
      rw [hh', handleData_init_waitStart hs'] at hz
      rcases awaitStart_eq_ok hz with ⟨b, hb, hne, rfl⟩ | ⟨hb, r, hr⟩
      · exact .awaits hh' hs' rfl rfl
      · have hreq := requested_of_eq_ok hy.inside (hy.alloc ▸ hmax) hr
        have hfive : z.expectBytes = 5 := hreq.expectBytes
        have hone := hreq.size
        exact .features (hreq.handleData.trans hh') (by rw [hreq.data])
          (hreq.payload.trans (payload_start hsize hb)) (by omega) (by omega)
  | features hh hs hw hsum hpos =>
      have hs' : y.data.rxstate = .discovery := by rw [hy.data, hs]
      rw [hy.handleData.trans hh, handleData_init_discovery hs'] at hz
      obtain ⟨stag, _, hz⟩ := bind_eq_ok.mp hz
      obtain ⟨itag, _, hz⟩ := bind_eq_ok.mp hz
      obtain ⟨etag, _, hz⟩ := bind_eq_ok.mp hz
      cases hz
      exact .packets rfl

/-- Of the rest of a receiver nothing is said. -/
theorem Announcement.congr (h : Announcement x)
    (hh : y.handleData = x.handleData)
    (hs : y.data.rxstate = x.data.rxstate) (hrecv : y.recv = x.recv)
    (he : y.expectBytes = x.expectBytes) : Announcement y := by
  cases h with
  | packets hh' => exact .packets (hh.trans hh')
  | awaits hh' hs' hsize he' =>
      exact .awaits (hh.trans hh') (hs.trans hs') (hrecv ▸ hsize)
        (he.trans he')
  | features hh' hs' hw hsum hpos =>
      exact .features (hh.trans hh') (hs.trans hs') (hrecv ▸ hw)
        (by rw [hrecv, he, hsum]) (he ▸ hpos)

theorem announcement_step {p q : Port} {e : SerialEvent}
    (h : Announcement p.xfer) (hp : Staged host p.xfer)
    (hasked : ReadsReturn p e) (hno : NoDiscovery p e)
    (hstep : serialStep host p e = .ok q) : Announcement q.xfer := by
  have hs := serialStep_stepped hno.ne hstep
  generalize q.xfer = z at hs
  cases hs with
  | nothing => exact h
  | absorbs hy hmore =>
      exact h.absorbs hp.inside hasked (absorbed_of_eq_ok hy) hmore
  | fires hy hzero hz =>
      exact h.fires hp.inside hp.alloc_le (absorbed_of_eq_ok hy) hzero hz
  | sends => exact h.congr rfl rfl rfl rfl

theorem LivesUnder.announcement {p : Port}
    (h : LivesUnder host NoDiscovery p) : Announcement p.xfer := by
  induction h with
  | discovers hp h =>
      obtain ⟨transferlist, hook, hq⟩ := hp.discovers h
      rw [hq]
      exact .awaits rfl rfl hp.empty rfl
  | steps hp hno hasked h ih =>
      exact announcement_step ih hp.staged hasked hno h
  | fills _ inst ih => exact ih.congr rfl rfl rfl rfl

end Announcement

/-! ## The account -/

/-- Between two events: the piece that is waited for is as long as what has
been received of it and what is still expected. -/
structure Accounting (host : Endian) (x : SerialXfer) : Prop where
  waitStart : x.data.rxstate = .waitStart →
    x.recv.size = 0 ∧ x.expectBytes = 1
  discovery : x.data.rxstate = .discovery →
    (x.recv.size : Int) + x.expectBytes = 6
  getLen : x.data.rxstate = .getLen →
    (x.recv.size : Int) + x.expectBytes = 1 + x.data.szSz
  getBody : x.data.rxstate = .getBody →
    ∃ n : Nat, numberToInt host x.recv.data 1 x.data.szSz = .ok n ∧
      (n < 2147483648 →
        (x.recv.size : Int) + x.expectBytes = 1 + x.data.szSz + n)
  started : x.data.rxstate ≠ .waitStart → x.recv.data[0]? = some magicStart

section Account

variable {host : Endian} {x : SerialXfer}

theorem data_start {c : AuraChunk} {w : List UInt8}
    (h : c.payload = magicStart :: w) : c.data[0]? = some magicStart := by
  rw [data_eq_payload_append c, h]
  rfl

theorem size_of_payload {c : AuraChunk} {w : List UInt8}
    (hinside : c.size ≤ c.alloc) (h : c.payload = magicStart :: w) :
    c.size = w.length + 1 := by
  rw [← length_payload hinside, h, List.length_cons]

/-- The stages and the account of them. -/
theorem Staged.account (hx : Staged host x) (h : Announcement x)
    (hsizes : x.handleData = .packets → DeclaredSize x.data.szSz) :
    Accounting host x := by
  cases hx.stage with
  | announce hh hs he =>
      cases h with
      | packets hh' => cases hh.symm.trans hh'
      | features hh' hs' => cases hs.symm.trans hs'
      | awaits _ _ hsize =>
          constructor <;> intro hs'
          case waitStart => exact ⟨hsize, he⟩
          case started => exact absurd hs hs'
          all_goals cases hs.symm.trans hs'
  | features hh hs =>
      cases h with
      | packets hh' => cases hh.symm.trans hh'
      | awaits hh' hs' => cases hs.symm.trans hs'
      | features _ _ hw hsum =>
          constructor <;> intro hs'
          case discovery => exact hsum
          case started => exact data_start hw
          all_goals cases hs.symm.trans hs'
  | lost hh hk => exact absurd (hsizes hh) hk
  | start hh hs hk hsz hsize he =>
      constructor <;> intro hs'
      case waitStart => exact ⟨hsize, he⟩
      case started => exact absurd hs hs'
      all_goals cases hs.symm.trans hs'
  | length hh hs hk hsz hw hsum =>
      have hsize := size_of_payload hx.inside hw
      constructor <;> intro hs'
      case getLen =>
        rw [hsz]
        omega
      case started => exact data_start hw
      all_goals cases hs.symm.trans hs'
  | @body k w n hh hs hk hsz hw hn hlen hsum =>
      have hsize := size_of_payload hx.inside hw
      constructor <;> intro hs'
      case getBody =>
        refine ⟨lengthOf host k w, ?_, fun hsmall => ?_⟩
        · rw [hsz]
          exact numberToInt_payload hk hw hlen
        · have hcount : n = lengthOf host k w := by
            rw [hn]
            exact cInt_of_mem (by unfold intMax; omega)
              (by unfold intMax; omega)
          rw [hsz]
          omega
      case started => exact data_start hw
      all_goals cases hs.symm.trans hs'

/-- From the start of its first discovery on, whatever a device sends and
however it is cut up, and whatever is called meanwhile. -/
theorem accounting {p : Port} (hp : LivesUnder host NoDiscovery p)
    (hsizes : p.xfer.handleData = .packets →
      DeclaredSize p.xfer.data.szSz) : Accounting host p.xfer :=
  hp.staged.account hp.announcement hsizes

end Account

instance decidableReadsReturn (p : Port) : ∀ e, Decidable (ReadsReturn p e)
  | .epollin (.got _) _ => inferInstanceAs (Decidable (_ ≤ _))
  | .epollin .failed _ | .epollout _ _ | .call _ _ | .discovery _ =>
      isTrue trivial

theorem unheard_openedPort : Unheard openedPort :=
  opened_openedPort.unheard

/-- The request goes out, features of a device with lengths of two bytes come
in, and a packet of 300 bytes begins. -/
def longPacket : List SerialEvent :=
  .epollout [.wrote 4] true ::
    reads [[magicStop], [magicStart], [2, 1], [chr 'l', 0, 0], [magicStart],
      [44], [1], [7, 7]]

theorem accounting_longPacket :
    Accounting .little
      (afterwards (serialStep .little) waitingPort longPacket).xfer :=
  accounting
    ((LivesUnder.discovers unheard_openedPort
      urpcSerialDiscovery_openedPort).runs
        (Runs.afterwards (by decide +kernel)))
    (by decide +kernel)

end Aura.Proofs
