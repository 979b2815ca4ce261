import Mathlib.Data.List.Forall2
import Aura.Proofs.Argcache

/-!
# What `urpc_argcache` accepts

The parser means to accept seven tokens. It recognises a string by its first
letter and everything else by the last number and the last letter `sscanf` has
read, in this token or in one before it, so it also takes `sx`, `1dx` and,
behind a `1d`, any token at all. A token is refused only when neither its first
letter nor what is in force makes a field of it (`Rejected`), and the parser
decides as the grammar does exactly when it refuses a token or has nothing but
tokens of the grammar before it (`argcache_grammar_iff`).

It counts the separators for the size of its array and fills it token by token
with a NULL at the end, which has no place when every piece between separators
is a token (`argcache_inBounds_iff`).
-/

namespace Aura.Proofs

open Aura.Lib Aura.Ref

/-! ## What is in force -/

/-- The digits `%d` takes and what stands behind them. -/
def scanDigits (tok : List UInt8) : Bool × List UInt8 × List UInt8 :=
  let (neg, rest) := scanSign (tok.dropWhile isSpace)
  (neg, rest.takeWhile isDigit, rest.dropWhile isDigit)

/-- The number `%d` reads in a token, if there is one. -/
def scannedNumber (tok : List UInt8) : Option Int :=
  let (neg, digits, _) := scanDigits tok
  if digits = [] then none else some (scanValue neg digits)

/-- The character `%c` reads behind it. -/
def scannedLetter (tok : List UInt8) : Option UInt8 :=
  let (_, digits, rest) := scanDigits tok
  if digits = [] then none else rest.head?

/-- The last number read in the tokens `toks`, or what the local held. -/
def numberInForce (len : Int) (toks : List (List UInt8)) : Int :=
  (toks.filterMap scannedNumber).getLastD len

/-- The last letter. -/
def letterInForce (fmt : UInt8) (toks : List (List UInt8)) : UInt8 :=
  (toks.filterMap scannedLetter).getLastD fmt

/-- A number and a letter that make a field. -/
def FieldOf (len : Int) (fmt : UInt8) : Prop :=
  (fmt = chr 'd' ∨ fmt = chr 'u') ∧ (len = 1 ∨ len = 2 ∨ len = 4)

/-- One of the tokens starts with another letter than `s`, with no field in
force. -/
def Rejected (len : Int) (fmt : UInt8) (toks : List (List UInt8)) : Prop :=
  ∃ before tok after, toks = before ++ tok :: after ∧
    tok.head? ≠ some (chr 's') ∧
    ¬ FieldOf (numberInForce len (before ++ [tok]))
      (letterInForce fmt (before ++ [tok]))

/-- The tokens of the grammar. -/
def InGrammar (tok : List UInt8) : Prop := ∃ t, tok = Token.text t

section Scan

variable {len : Int} {fmt : UInt8} {tok : List UInt8}
  {toks : List (List UInt8)}

theorem sscanfDC_eq :
    sscanfDC tok len fmt = (numberInForce len [tok], letterInForce fmt [tok]) := by
  have hnumber : numberInForce len [tok] = (scannedNumber tok).getD len := by
    cases h : scannedNumber tok <;> simp [numberInForce, h]
  have hletter : letterInForce fmt [tok] = (scannedLetter tok).getD fmt := by
    cases h : scannedLetter tok <;> simp [letterInForce, h]
  rw [hnumber, hletter, sscanfDC, scannedNumber, scannedLetter, scanDigits]
  obtain ⟨neg, rest⟩ := scanSign (tok.dropWhile isSpace)
  dsimp only
  generalize rest.takeWhile isDigit = digits
  generalize rest.dropWhile isDigit = behind
  by_cases hd : digits = []
  · simp [hd]
  · cases behind <;> simp [hd]

theorem numberInForce_cons :
    numberInForce len (tok :: toks)
      = numberInForce (numberInForce len [tok]) toks := by
  unfold numberInForce
  cases h : scannedNumber tok <;>
    simp only [List.filterMap_cons, List.filterMap_nil, h, List.getLastD_cons,
      List.getLastD_nil]

theorem letterInForce_cons :
    letterInForce fmt (tok :: toks)
      = letterInForce (letterInForce fmt [tok]) toks := by
  unfold letterInForce
  cases h : scannedLetter tok <;>
    simp only [List.filterMap_cons, List.filterMap_nil, h, List.getLastD_cons,
      List.getLastD_nil]

theorem tokenOf_eq_none :
    tokenOf tok len fmt = none ↔
      tok.head? ≠ some (chr 's') ∧ ¬ FieldOf len fmt := by
  have hud : chr 'u' ≠ chr 'd' := by decide
  unfold tokenOf FieldOf
  by_cases hs : tok.head? = some (chr 's')
  · simp [hs]
  · by_cases hd : fmt = chr 'd'
    · by_cases h1 : len = 1 <;> by_cases h2 : len = 2 <;>
        by_cases h4 : len = 4 <;> simp [hs, hd, h1, h2, h4]
    · by_cases hu : fmt = chr 'u'
      · by_cases h1 : len = 1 <;> by_cases h2 : len = 2 <;>
          by_cases h4 : len = 4 <;> simp [hs, hu, hud, h1, h2, h4]
      · simp [hs, hd, hu]

theorem rejected_cons :
    Rejected len fmt (tok :: toks) ↔
      tokenOf tok (numberInForce len [tok]) (letterInForce fmt [tok]) = none ∨
        Rejected (numberInForce len [tok]) (letterInForce fmt [tok]) toks := by
  rw [tokenOf_eq_none]
  constructor
  · rintro ⟨before, tok', after, htoks, hhead, hfield⟩
    cases before with
    | nil =>
        cases htoks
        exact .inl ⟨hhead, hfield⟩
    | cons first before =>
        cases htoks
        rw [List.cons_append, numberInForce_cons, letterInForce_cons] at hfield
        exact .inr ⟨before, tok', after, rfl, hhead, hfield⟩
  · rintro (⟨hhead, hfield⟩ | ⟨before, tok', after, rfl, hhead, hfield⟩)
    · exact ⟨[], tok, toks, rfl, hhead, hfield⟩
    · refine ⟨tok :: before, tok', after, rfl, hhead, ?_⟩
      rwa [List.cons_append, numberInForce_cons, letterInForce_cons]

/-- Tokens of the grammar are read as what they are. -/
theorem not_rejected_of_inGrammar (h : ∀ tok ∈ toks, InGrammar tok) :
    ¬ Rejected len fmt toks := by
  induction toks generalizing len fmt with
  | nil =>
      rintro ⟨before, tok, after, htoks, _⟩
      simp at htoks
  | cons tok toks ih =>
      obtain ⟨t, rfl⟩ := h _ (List.mem_cons_self ..)
      have hread := tokenOf_text t len fmt
      rw [sscanfDC_eq] at hread
      rw [rejected_cons, hread]
      intro hrej
      exact ih (fun u hu => h u (List.mem_cons_of_mem _ hu))
        (hrej.resolve_left nofun)

/-! ## The token loop -/

theorem argcacheLoop_rejected {pack : Bool} {slots : Nat}
    {cache : List CacheFn} (h : Rejected len fmt toks)
    (hroom : cache.length + toks.length ≤ slots) :
    argcacheLoop slots pack toks len fmt cache = .ok none := by
  induction toks generalizing len fmt cache with
  | nil =>
      obtain ⟨before, tok, after, htoks, _⟩ := h
      simp at htoks
  | cons tok toks ih =>
      rw [List.length_cons] at hroom
      rw [rejected_cons] at h
      simp only [argcacheLoop, sscanfDC_eq]
      cases ht : tokenOf tok (numberInForce len [tok])
          (letterInForce fmt [tok]) with
      | none => rfl
      | some t =>
          rw [ht] at h
          simp only [if_pos (show cache.length < slots by omega)]
          apply ih (h.resolve_left (Option.some_ne_none t))
          rw [List.length_append, List.length_singleton]
          omega

/-- Past the last token there has to be a slot for the NULL. -/
theorem argcacheLoop_not_rejected (pack : Bool)
    (h : ¬ Rejected len fmt toks) :
    ∃ ts : List Token, ts.length = toks.length ∧
      ∀ (slots : Nat) (cache : List CacheFn),
        cache.length + toks.length ≤ slots →
        argcacheLoop slots pack toks len fmt cache =
          if cache.length + toks.length < slots then
            .ok (some (cache ++ ts.map (Token.fn pack)))
          else .error .outOfBounds := by
  induction toks generalizing len fmt with
  | nil =>
      refine ⟨[], rfl, fun slots cache _ => ?_⟩
      simp [argcacheLoop]
  | cons tok toks ih =>
      rw [rejected_cons, not_or] at h
      obtain ⟨t, ht⟩ := Option.ne_none_iff_exists'.mp h.1
      obtain ⟨ts, hlen, hrun⟩ := ih h.2
      refine ⟨t :: ts, by simp [hlen], fun slots cache hroom => ?_⟩
      rw [List.length_cons] at hroom
      simp only [argcacheLoop, sscanfDC_eq, ht]
      rw [if_pos (by omega), hrun slots _ (by simp; omega)]
      simp only [Token.fn, List.length_append, List.length_cons,
        List.length_nil, List.map_cons, List.append_assoc, List.cons_append,
        List.nil_append, Nat.add_assoc, Nat.add_comm 1]

end Scan

/-! ## Tokens and separators -/

theorem length_splitOn (str : List UInt8) (d : UInt8) :
    (str.splitOn d).length = str.count d + 1 := by
  induction str with
  | nil => rfl
  | cons b str ih =>
      rw [List.splitOn_cons_eq_if_modifyHead, List.count_cons]
      by_cases hb : (b == d) = true <;> simp [hb, ih]

/-- There are never more tokens than pieces. -/
theorem length_strtok_le (str : List UInt8) (d : UInt8) :
    (strtok str d).length ≤ strdlmcnt str d + 1 := by
  rw [strdlmcnt, ← length_splitOn]
  exact List.length_filter_le ..

/-- There are as many exactly when no piece is empty. -/
theorem length_strtok_lt_iff (str : List UInt8) (d : UInt8) :
    (strtok str d).length < strdlmcnt str d + 1 ↔ [] ∈ str.splitOn d := by
  rw [strdlmcnt, ← length_splitOn, strtok, List.length_filter_lt_length_iff_exists]
  simp

/-! ## The parser -/

/-- Every index the parser stores to is one of its array. -/
def CacheInBounds (len : Int) (fmt : UInt8) (str : List UInt8) : Prop :=
  ∀ pack, ∃ r, urpcArgcache len fmt (some str) pack = .ok r

/-- The parser returns a cache exactly for formats all of whose tokens are in
the grammar, and the entries are then those of the tokens. -/
def FollowsGrammar (len : Int) (fmt : UInt8) (str : List UInt8) : Prop :=
  ∀ pack, ∃ r, urpcArgcache len fmt (some str) pack = .ok r ∧
    (r ≠ none ↔ ∀ tok ∈ strtok str (chr ';'), InGrammar tok) ∧
    ∀ cache ∈ r, List.Forall₂
      (fun tok fn => ∃ t, tok = Token.text t ∧ fn = Token.fn pack t)
      (strtok str (chr ';')) cache

section Parser

variable {len : Int} {fmt : UInt8} {str : List UInt8}

theorem urpcArgcache_rejected (pack : Bool)
    (h : Rejected len fmt (strtok str (chr ';'))) :
    urpcArgcache len fmt (some str) pack = .ok none := by
  apply argcacheLoop_rejected h
  rw [List.length_nil, Nat.zero_add]
  exact length_strtok_le str (chr ';')

theorem urpcArgcache_not_rejected (pack : Bool)
    (h : ¬ Rejected len fmt (strtok str (chr ';'))) :
    ∃ ts : List Token, urpcArgcache len fmt (some str) pack =
      if [] ∈ str.splitOn (chr ';') then .ok (some (ts.map (Token.fn pack)))
      else .error .outOfBounds := by
  obtain ⟨ts, _, hrun⟩ := argcacheLoop_not_rejected pack h
  refine ⟨ts, ?_⟩
  simp only [urpcArgcache]
  rw [hrun _ [] (by simpa using length_strtok_le str (chr ';'))]
  simp only [List.length_nil, Nat.zero_add, List.nil_append,
    length_strtok_lt_iff]

theorem urpcArgcache_inGrammar (pack : Bool)
    (h : ∀ tok ∈ strtok str (chr ';'), InGrammar tok)
    (hempty : [] ∈ str.splitOn (chr ';')) :
    ∃ ts : List Token, strtok str (chr ';') = ts.map Token.text ∧
      urpcArgcache len fmt (some str) pack
        = .ok (some (ts.map (Token.fn pack))) := by
  obtain ⟨ts, hts⟩ : ∃ ts : List Token, strtok str (chr ';') = ts.map Token.text := by
    generalize strtok str (chr ';') = toks at h
    induction toks with
    | nil => exact ⟨[], rfl⟩
    | cons tok toks ih =>
        obtain ⟨t, rfl⟩ := h _ (List.mem_cons_self ..)
        obtain ⟨ts, rfl⟩ := ih fun u hu => h u (List.mem_cons_of_mem _ hu)
        exact ⟨t :: ts, rfl⟩
  refine ⟨ts, hts, ?_⟩
  have hroom := (length_strtok_lt_iff str (chr ';')).mpr hempty
  rw [hts, List.length_map] at hroom
  simp only [urpcArgcache, hts]
  rw [argcacheLoop_texts pack ts len fmt [] (by simpa using hroom)]
  rfl

end Parser

/-- The parser stays inside its array exactly when a piece between separators
is empty or a token is refused. -/
theorem argcache_inBounds_iff (len : Int) (fmt : UInt8) (str : List UInt8) :
    CacheInBounds len fmt str ↔
      [] ∈ str.splitOn (chr ';') ∨ Rejected len fmt (strtok str (chr ';')) := by
  constructor
  · intro h
    by_contra hnot
    rw [not_or] at hnot
    obtain ⟨ts, hrun⟩ := urpcArgcache_not_rejected true hnot.2
    obtain ⟨r, hr⟩ := h true
    rw [hrun, if_neg hnot.1] at hr
    cases hr
  · intro h pack
    by_cases hrej : Rejected len fmt (strtok str (chr ';'))
    · exact ⟨none, urpcArgcache_rejected pack hrej⟩
    · obtain ⟨ts, hrun⟩ := urpcArgcache_not_rejected pack hrej
      rw [if_pos (h.resolve_right hrej)] at hrun
      exact ⟨_, hrun⟩

/-- One token and no separator: the NULL goes behind the only slot. -/
theorem cache_overrun : ¬ ∀ len fmt str, CacheInBounds len fmt str := by
  intro h
  obtain ⟨r, hr⟩ := h 0 0 [chr '1', chr 'd'] true
  have hover : urpcArgcache 0 0 (some [chr '1', chr 'd']) true
      = .error .outOfBounds := by decide
  rw [hover] at hr
  cases hr

/-- The parser decides as the grammar does exactly when it refuses a token, or
has only tokens of the grammar to read and a slot for the NULL. -/
theorem argcache_grammar_iff (len : Int) (fmt : UInt8) (str : List UInt8) :
    FollowsGrammar len fmt str ↔
      Rejected len fmt (strtok str (chr ';')) ∨
        ([] ∈ str.splitOn (chr ';') ∧
          ∀ tok ∈ strtok str (chr ';'), InGrammar tok) := by
  constructor
  · intro h
    by_cases hrej : Rejected len fmt (strtok str (chr ';'))
    · exact .inl hrej
    · obtain ⟨ts, hrun⟩ := urpcArgcache_not_rejected true hrej
      obtain ⟨r, hr, haccepts, _⟩ := h true
      by_cases hempty : [] ∈ str.splitOn (chr ';')
      · rw [hrun, if_pos hempty] at hr
        cases hr
        exact .inr ⟨hempty, haccepts.mp nofun⟩
      · rw [hrun, if_neg hempty] at hr
        cases hr
  · rintro (hrej | ⟨hempty, hall⟩) pack
    · refine ⟨none, urpcArgcache_rejected pack hrej, ?_, nofun⟩
      have hnot : ¬ ∀ tok ∈ strtok str (chr ';'), InGrammar tok :=
        fun hall => not_rejected_of_inGrammar hall hrej
      simp [hnot]
    · obtain ⟨ts, hts, hrun⟩ :=
        @urpcArgcache_inGrammar len fmt _ pack hall hempty
      refine ⟨_, hrun, iff_of_true nofun hall, fun cache hcache => ?_⟩
      cases hcache
      rw [hts, List.forall₂_map_left_iff, List.forall₂_map_right_iff]
      exact List.forall₂_same.mpr fun t _ => ⟨t, rfl, rfl⟩

/-- `sx` is taken for a string. -/
theorem grammar_not_followed : ¬ ∀ len fmt str, FollowsGrammar len fmt str := by
  intro h
  obtain ⟨r, hr, haccepts, _⟩ := h 0 0 [chr 's', chr 'x', chr ';'] true
  have htaken : urpcArgcache 0 0 (some [chr 's', chr 'x', chr ';']) true
      = .ok (some [.pack .string]) := by decide
  rw [htaken] at hr
  cases hr
  obtain ⟨t, ht⟩ := haccepts.mp nofun [chr 's', chr 'x'] (by decide)
  revert ht
  cases t <;> decide

end Aura.Proofs
