import Mathlib.Data.List.TakeWhile
import Aura.Ref.Uart

/-!
# Settings and flags

A speed and a size are taken if `sscanf` makes a supported number of them,
which it also does of `9600abc`, and of a text it can make nothing of when the
local happens to hold one. Two stop bits are asked for in the word of the
output flags, where `CSTOPB` means something else and nothing for the line. So
a string is honoured or refused exactly when one of its numbers is not taken,
or both are what they are taken for and there is no second stop bit to set
(`settings_honoured_iff`).
-/

namespace Aura.Proofs

open Aura.Lib Aura.Ref

/-! ## Five fields -/

/-- A settings string with all of its fields. -/
structure SettingsText where
  port : List UInt8
  speed : List UInt8
  bits : List UInt8
  parity : List UInt8
  stop : List UInt8
  fields : ∀ t ∈ [port, speed, bits, parity, stop], t ≠ [] ∧ chr ':' ∉ t

/-- Pieces, with colons between them. -/
def colons : List (List UInt8) → List UInt8
  | [] => []
  | [t] => t
  | t :: ts => t ++ chr ':' :: colons ts

/-- The string as the device name carries it. -/
def SettingsText.text (f : SettingsText) : List UInt8 :=
  colons [f.port, f.speed, f.bits, f.parity, f.stop]

theorem strtok_colons {ts : List (List UInt8)}
    (h : ∀ t ∈ ts, t ≠ [] ∧ chr ':' ∉ t) :
    strtok (colons ts) (chr ':') = ts := by
  induction ts with
  | nil => rfl
  | cons t ts ih =>
      obtain ⟨hne, hcolon⟩ := h t (List.mem_cons_self ..)
      have hrest := ih fun u hu => h u (List.mem_cons_of_mem _ hu)
      cases ts with
      | nil =>
          rw [colons, strtok, List.splitOn_eq_singleton hcolon,
            List.filter_cons_of_pos (by simpa using hne), List.filter_nil]
      | cons u ts =>
          rw [colons, strtok, List.splitOn_append_cons_self_of_not_mem hcolon,
            List.filter_cons_of_pos (by simpa using hne)]
          · exact congrArg (t :: ·) hrest
          · exact nofun

theorem SettingsText.strtok_text (f : SettingsText) :
    strtok f.text (chr ':') = [f.port, f.speed, f.bits, f.parity, f.stop] :=
  strtok_colons f.fields

/-! ## Numbers -/

/-- The text is the number `v`, written in digits. -/
def Numeral (t : List UInt8) (v : Int) : Prop :=
  t ≠ [] ∧ (∀ b ∈ t, isDigit b = true) ∧
    ((t.foldl (fun acc b => acc * 10 + (b.toNat - 48)) 0 : Nat) : Int) = v

/-- The text is one of the numbers. -/
def Supported (vs : List Int) (t : List UInt8) : Prop := ∃ v ∈ vs, Numeral t v

theorem isSpace_of_isDigit {b : UInt8} (h : isDigit b = true) :
    isSpace b = false := by
  simp only [isDigit, Bool.and_eq_true, decide_eq_true_eq, isSpace,
    Bool.or_eq_false_iff, decide_eq_false_iff_not, Bool.and_eq_false_iff,
    UInt8.le_iff_toNat_le] at *
  obtain ⟨hlo, hhi⟩ := h
  refine ⟨?_, .inr ?_⟩
  · rintro rfl
    exact absurd hlo (by decide)
  · intro hle
    exact absurd (Nat.le_trans hlo hle) (by decide)

theorem scanSign_digit {b : UInt8} (h : isDigit b = true) (t : List UInt8) :
    scanSign (b :: t) = (false, b :: t) := by
  have hminus : b ≠ chr '-' := by
    rintro rfl
    exact absurd h (by decide)
  have hplus : b ≠ chr '+' := by
    rintro rfl
    exact absurd h (by decide)
  rw [scanSign, if_neg hminus, if_neg hplus]

/-- What is a number is read as that number. -/
theorem sscanfD_numeral {t : List UInt8} {v : Int} (h : Numeral t v)
    (hmax : v ≤ intMax) (x : Int) : sscanfD t x = v := by
  obtain ⟨hne, hdigits, hv⟩ := h
  cases t with
  | nil => exact absurd rfl hne
  | cons b t =>
      have hb := hdigits b (List.mem_cons_self ..)
      have htake : (b :: t).takeWhile isDigit = b :: t :=
        List.takeWhile_eq_self_iff.mpr hdigits
      rw [sscanfD, List.dropWhile_cons_of_neg (by simp [isSpace_of_isDigit hb]),
        scanSign_digit hb]
      simp only [htake]
      rw [if_neg nofun, scanValue]
      simp only [Bool.false_eq_true, if_false]
      rw [hv]
      have hpos : 0 ≤ v := hv ▸ Int.natCast_nonneg _
      have hlo : max (-9223372036854775808) (min 9223372036854775807 v) = v := by
        unfold intMax at hmax
        omega
      rw [hlo]
      exact cInt_of_mem (by unfold intMax; omega) hmax

/-! ## The flags -/

/-- The flag of a supported number. -/
def flagOf (table : List (Int × Tcflag)) (v : Int) : Tcflag :=
  (table.lookup v).getD 0

/-- What the string asks of the control word. -/
def requested (f : SettingsText) (speed bits : Int) : Tcflag :=
  flagOf baudFlags speed ||| flagOf sizeFlags bits ||| parityFlags f.parity |||
    (if f.stop.head? = some (chr '2') then cstopb else 0) ||| clocal ||| cread

/-- The bits that mean something in the control word. -/
def controlBits : Tcflag :=
  0o10017 ||| 0o60 ||| cstopb ||| cread ||| parenb ||| parodd ||| clocal

/-- Settings are refused when a number is not supported, and otherwise the port
gets what they ask for, in the control word only. -/
structure HonouredOrRefused (speed : Int) (f : SettingsText) : Prop where
  refused : ¬ Supported mapSpeed f.speed ∨ ¬ Supported mapBits f.bits →
    makeSettings speed f.text = none
  honoured : ∀ v ∈ mapSpeed, ∀ b ∈ mapBits, Numeral f.speed v →
    Numeral f.bits b → ∃ us, makeSettings speed f.text = some us ∧
      (uartTermios us).cCflag = requested f v b ∧
      (uartTermios us).cOflag &&& controlBits = 0

section Settings

variable {speed : Int} {f : SettingsText}

theorem lookup_ne_none {flags : List (Int × Tcflag)} {v : Int} :
    flags.lookup v ≠ none ↔ v ∈ flags.map Prod.fst := by
  rw [Ne, List.lookup_eq_none_iff]
  simp

/-- What the port gets of the parsed settings. -/
theorem makeSettings_text (speed : Int) (f : SettingsText) :
    makeSettings speed f.text =
      (baudFlags.lookup (sscanfD f.speed speed)).bind fun baud =>
        (sizeFlags.lookup (sscanfD f.bits 0)).map fun size =>
          { ifl := 0
            cfl := baud ||| size ||| parityFlags f.parity
            ofl := if f.stop.head? = some (chr '2') then cstopb else 0
            port := some f.port
            fd := 0 } := by
  simp only [makeSettings, f.strtok_text, List.getElem?_cons_zero,
    List.getElem?_cons_succ, UartSettingsT.switch]
  cases baudFlags.lookup (sscanfD f.speed speed) with
  | none => rfl
  | some baud =>
      cases sizeFlags.lookup (sscanfD f.bits 0) with
      | none => rfl
      | some size =>
          by_cases hstop : f.stop.head? = some (chr '2') <;>
            simp [UartSettingsT.setParity, UartSettingsT.setStop,
              UartSettingsT.orCfl, hstop]

theorem plain_setStop (s : UartSettingsT) (t : Option (List UInt8)) :
    (s.setStop t).plain = s.plain := by
  cases t with
  | none => rfl
  | some t =>
      by_cases hstop : t.head? = some (chr '2')
      · simp [UartSettingsT.setStop, UartSettingsT.plain, hstop]
      · simp [UartSettingsT.setStop, hstop]

theorem plain_setParity (s : UartSettingsT) (t : Option (List UInt8)) :
    (s.setParity t).plain = s.plain := by
  cases t <;> rfl

theorem plain_switch (flags : List (Int × Tcflag)) (v : Int)
    (s : UartSettingsT) (t : Option (List UInt8)) :
    (s.switch flags v t).map UartSettingsT.plain =
      if t.any (fun t => sscanfD t v ∉ flags.map Prod.fst) then none
      else some s.plain := by
  cases t with
  | none => rfl
  | some t =>
      rw [UartSettingsT.switch, Option.any_some]
      cases h : flags.lookup (sscanfD t v) with
      | none =>
          have hmem := mt lookup_ne_none.mpr (not_not.mpr h)
          rw [if_pos (by simpa using hmem)]
          rfl
      | some flag =>
          have hmem := lookup_ne_none.mp (by rw [h]; exact nofun)
          rw [if_neg (by simpa using hmem)]
          rfl

/-- They are what an attempt to open goes by. -/
theorem makeSettings_plain (speed : Int) (str : List UInt8) :
    (makeSettings speed str).map UartSettingsT.plain
      = parseSettings speed str := by
  unfold makeSettings parseSettings
  generalize strtok str (chr ':') = toks
  have hspeed := plain_switch baudFlags speed ⟨0, 0, 0, toks[0]?, 0⟩ toks[1]?
  simp only [show baudFlags.map Prod.fst = mapSpeed from rfl] at hspeed
  by_cases hbaud : toks[1]?.any fun t => sscanfD t speed ∉ mapSpeed
  · rw [if_pos hbaud, Option.map_eq_none_iff] at hspeed
    simp only [hspeed, if_pos hbaud]
    rfl
  · rw [if_neg hbaud] at hspeed
    obtain ⟨s, hs, hplain⟩ := Option.map_eq_some_iff.mp hspeed
    have hbits := plain_switch sizeFlags 0 s toks[2]?
    simp only [show sizeFlags.map Prod.fst = mapBits from rfl] at hbits
    by_cases hsize : toks[2]?.any fun t => sscanfD t 0 ∉ mapBits
    · rw [if_pos hsize, Option.map_eq_none_iff] at hbits
      simp only [hs, if_neg hbaud, if_pos hsize, Option.bind_eq_bind,
        Option.bind_some, hbits]
      rfl
    · rw [if_neg hsize] at hbits
      obtain ⟨u, hu, hplain'⟩ := Option.map_eq_some_iff.mp hbits
      simp only [hs, if_neg hbaud, if_neg hsize, Option.bind_eq_bind,
        Option.bind_some, hu, Option.pure_def, Option.map_some, plain_setStop,
        plain_setParity, hplain', hplain]
      rfl

/-! ## Honoured or refused -/

theorem flagOf_lookup {table : List (Int × Tcflag)} {v : Int} {flag : Tcflag}
    (h : table.lookup v = some flag) : flagOf table v = flag := by
  rw [flagOf, h, Option.getD_some]

/-- No flag but `CSTOPB` has its bit. -/
theorem stopBit_clear {v b : Int} (hv : v ∈ mapSpeed) (hb : b ∈ mapBits)
    (t : List UInt8) :
    (flagOf baudFlags v ||| flagOf sizeFlags b ||| parityFlags t |||
      clocal ||| cread).getLsbD 6 = false := by
  have hbaud : ∀ v ∈ mapSpeed, (flagOf baudFlags v).getLsbD 6 = false := by
    decide
  have hsize : ∀ b ∈ mapBits, (flagOf sizeFlags b).getLsbD 6 = false := by
    decide
  have hparity : (parityFlags t).getLsbD 6 = false := by
    unfold parityFlags
    by_cases ho : t = [chr 'o']
    · rw [if_pos ho]
      decide
    · rw [if_neg ho]
      by_cases he : t = [chr 'e']
      · rw [if_pos he]
        decide
      · rw [if_neg he]
        decide
  simp only [BitVec.getLsbD_or, hbaud v hv, hsize b hb, hparity, Bool.false_or]
  decide

theorem le_intMax_of_mapSpeed {v : Int} (h : v ∈ mapSpeed) : v ≤ intMax := by
  revert v
  decide

theorem le_intMax_of_mapBits {b : Int} (h : b ∈ mapBits) : b ≤ intMax := by
  revert b
  decide

/-- `FAULT` is for the numbers alone. -/
theorem makeSettings_eq_none :
    makeSettings speed f.text = none ↔
      sscanfD f.speed speed ∉ mapSpeed ∨ sscanfD f.bits 0 ∉ mapBits := by
  have hspeed : baudFlags.lookup (sscanfD f.speed speed) ≠ none ↔
      sscanfD f.speed speed ∈ mapSpeed := lookup_ne_none
  have hbits : sizeFlags.lookup (sscanfD f.bits 0) ≠ none ↔
      sscanfD f.bits 0 ∈ mapBits := lookup_ne_none
  rw [makeSettings_text, ← hspeed, ← hbits]
  cases baudFlags.lookup (sscanfD f.speed speed) <;>
    cases sizeFlags.lookup (sscanfD f.bits 0) <;> simp

/-- The port gets what is asked for exactly when no second stop bit is. -/
theorem honoured_iff {v b : Int} (hv : v ∈ mapSpeed) (hb : b ∈ mapBits)
    (hspeed : sscanfD f.speed speed = v) (hbits : sscanfD f.bits 0 = b) :
    (∃ us, makeSettings speed f.text = some us ∧
      (uartTermios us).cCflag = requested f v b ∧
      (uartTermios us).cOflag &&& controlBits = 0) ↔
    f.stop.head? ≠ some (chr '2') := by
  have hlookup : baudFlags.lookup v ≠ none := lookup_ne_none.mpr hv
  have hlookup' : sizeFlags.lookup b ≠ none := lookup_ne_none.mpr hb
  obtain ⟨baud, hbaud⟩ := Option.ne_none_iff_exists'.mp hlookup
  obtain ⟨size, hsize⟩ := Option.ne_none_iff_exists'.mp hlookup'
  have hclear := stopBit_clear hv hb f.parity
  rw [flagOf_lookup hbaud, flagOf_lookup hsize] at hclear
  simp only [makeSettings_text, hspeed, hbits, hbaud, hsize, Option.bind_some,
    Option.map_some, Option.some.injEq, exists_eq_left', requested,
    flagOf_lookup hbaud, flagOf_lookup hsize, uartTermios]
  by_cases hstop : f.stop.head? = some (chr '2')
  · refine iff_of_false (fun ⟨hword, _⟩ => ?_) (not_not.mpr hstop)
    have hbit := congrArg (BitVec.getLsbD · 6) hword
    simp only [hclear, if_pos hstop, BitVec.getLsbD_or] at hbit
    rw [show cstopb.getLsbD 6 = true by decide, Bool.or_true, Bool.true_or,
      Bool.true_or] at hbit
    cases hbit
  · refine iff_of_true ⟨?_, ?_⟩ hstop
    · simp [hstop]
    · simp [hstop]

end Settings

/-- A settings string is honoured or refused exactly when one of its numbers is
read as one that is not supported, or both are supported numbers and one stop
bit is asked for. -/
theorem settings_honoured_iff (speed : Int) (f : SettingsText) :
    HonouredOrRefused speed f ↔
      sscanfD f.speed speed ∉ mapSpeed ∨ sscanfD f.bits 0 ∉ mapBits ∨
        (Supported mapSpeed f.speed ∧ Supported mapBits f.bits ∧
          f.stop.head? ≠ some (chr '2')) := by
  constructor
  · intro h
    by_contra hnot
    push Not at hnot
    obtain ⟨hspeed, hbits, hstop⟩ := hnot
    have htaken : makeSettings speed f.text ≠ none := by
      rw [Ne, makeSettings_eq_none, not_or, not_not, not_not]
      exact ⟨hspeed, hbits⟩
    have hsupported : Supported mapSpeed f.speed ∧ Supported mapBits f.bits := by
      by_contra hno
      rw [not_and_or] at hno
      exact htaken (h.refused hno)
    obtain ⟨⟨v, hv, hnv⟩, ⟨b, hb, hnb⟩⟩ := hsupported
    have hread := sscanfD_numeral hnv (le_intMax_of_mapSpeed hv) speed
    have hread' := sscanfD_numeral hnb (le_intMax_of_mapBits hb) 0
    exact (honoured_iff hv hb hread hread').mp (h.honoured v hv b hb hnv hnb)
      (hstop ⟨v, hv, hnv⟩ ⟨b, hb, hnb⟩)
  · intro h
    have hnumbers : ∀ v ∈ mapSpeed, ∀ b ∈ mapBits, Numeral f.speed v →
        Numeral f.bits b → sscanfD f.speed speed = v ∧ sscanfD f.bits 0 = b :=
      fun v hv b hb hnv hnb =>
        ⟨sscanfD_numeral hnv (le_intMax_of_mapSpeed hv) speed,
          sscanfD_numeral hnb (le_intMax_of_mapBits hb) 0⟩
    rw [← or_assoc, ← makeSettings_eq_none] at h
    rcases h with hnone | ⟨hspeed, hbits, hstop⟩
    · refine ⟨fun _ => hnone, fun v hv b hb hnv hnb => ?_⟩
      obtain ⟨rfl, rfl⟩ := hnumbers v hv b hb hnv hnb
      rcases makeSettings_eq_none.mp hnone with hno | hno
      · exact absurd hv hno
      · exact absurd hb hno
    · refine ⟨fun hno => ?_, fun v hv b hb hnv hnb => ?_⟩
      · exact absurd ⟨hspeed, hbits⟩ (not_and_or.mpr hno)
      · obtain ⟨hread, hread'⟩ := hnumbers v hv b hb hnv hnb
        exact (honoured_iff hv hb hread hread').mpr hstop

/-- The flag of the second stop bit never gets to the control word. -/
theorem settings_not_honoured : ¬ ∀ speed f, HonouredOrRefused speed f := by
  intro h
  let f : SettingsText :=
    ⟨[chr 't'], [chr '9', chr '6', chr '0', chr '0'], [chr '8'], [chr 'n'],
      [chr '2'], by decide⟩
  have hspeed : Numeral f.speed 9600 := ⟨nofun, by decide +kernel, by decide⟩
  have hbits : Numeral f.bits 8 := ⟨nofun, by decide +kernel, by decide⟩
  have hasked := (h 0 f).honoured 9600 (by decide) 8 (by decide) hspeed hbits
  exact (honoured_iff (by decide) (by decide) (by decide) (by decide)).mp hasked
    rfl

end Aura.Proofs
