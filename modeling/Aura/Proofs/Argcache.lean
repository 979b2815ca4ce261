import Aura.Ref.Datahelpers

/-!
# What `urpc_argcache` makes of a format

A cache holds one function per token, all of one kind (`urpcArgcache_tokens`),
and a format written as a list of `;`-terminated tokens gives exactly those
tokens (`urpcArgcache_formatOf`). The two locals that `sscanf` fills outlive
the token they were filled for, but a token that is written out in full does
not see what they held.
-/

namespace Aura.Proofs

open Aura.Lib Aura.Ref

/-- A cache entry of one kind or the other. -/
def Token.fn (pack : Bool) (t : Token) : CacheFn :=
  if pack then .pack t else .unpack t

/-- A token as a format spells it. -/
def Token.text : Token → List UInt8
  | .string => [chr 's']
  | .s8 => [chr '1', chr 'd']
  | .u8 => [chr '1', chr 'u']
  | .s16 => [chr '2', chr 'd']
  | .u16 => [chr '2', chr 'u']
  | .s32 => [chr '4', chr 'd']
  | .u32 => [chr '4', chr 'u']

/-- The format with the tokens `ts`, each terminated by a semicolon. -/
def formatOf (ts : List Token) : List UInt8 :=
  ts.flatMap fun t => Token.text t ++ [chr ';']

theorem Token.text_ne_nil (t : Token) : Token.text t ≠ [] := by
  cases t <;> simp [Token.text]

theorem Token.semicolon_notMem_text (t : Token) :
    chr ';' ∉ Token.text t := by
  cases t <;> decide

/-- Scanning a token yields it, whatever the locals held. -/
theorem tokenOf_text (t : Token) (len : Int) (fmt : UInt8) :
    tokenOf (Token.text t) (sscanfDC (Token.text t) len fmt).1
      (sscanfDC (Token.text t) len fmt).2 = some t := by
  cases t <;> rfl

theorem strtok_formatOf (ts : List Token) :
    strtok (formatOf ts) (chr ';') = ts.map Token.text := by
  unfold strtok formatOf
  induction ts with
  | nil => rfl
  | cons t ts ih =>
      rw [List.flatMap_cons, List.append_assoc, List.cons_append,
        List.splitOn_append_cons_self_of_not_mem
          (Token.semicolon_notMem_text t),
        List.filter_cons_of_pos (by simpa using Token.text_ne_nil t),
        List.nil_append, ih, List.map_cons]

theorem strdlmcnt_formatOf (ts : List Token) :
    strdlmcnt (formatOf ts) (chr ';') = ts.length := by
  unfold strdlmcnt formatOf
  induction ts with
  | nil => rfl
  | cons t ts ih =>
      rw [List.flatMap_cons, List.count_append, List.count_append, ih,
        List.count_eq_zero.mpr (Token.semicolon_notMem_text t),
        List.count_singleton_self, List.length_cons]
      omega

theorem argcacheLoop_texts (pack : Bool) {slots : Nat} (ts : List Token)
    (len : Int) (fmt : UInt8) (cache : List CacheFn)
    (hroom : cache.length + ts.length < slots) :
    argcacheLoop slots pack (ts.map Token.text) len fmt cache
      = .ok (some (cache ++ ts.map (Token.fn pack))) := by
  induction ts generalizing len fmt cache with
  | nil =>
      rw [List.map_nil, argcacheLoop, if_pos (by simpa using hroom)]
      simp only [List.map_nil, List.append_nil]
      rfl
  | cons t ts ih =>
      rw [List.length_cons] at hroom
      simp only [List.map_cons, argcacheLoop, tokenOf_text]
      rw [if_pos (by omega), ih]
      · simp only [Token.fn, List.append_assoc, List.cons_append,
          List.nil_append]
      · rw [List.length_append, List.length_singleton]
        omega

theorem urpcArgcache_formatOf (pack : Bool) (ts : List Token) (len : Int)
    (fmt : UInt8) :
    urpcArgcache len fmt (some (formatOf ts)) pack
      = .ok (some (ts.map (Token.fn pack))) := by
  simp only [urpcArgcache, strtok_formatOf, strdlmcnt_formatOf]
  exact argcacheLoop_texts pack ts len fmt [] (by simp)

theorem argcacheLoop_tokens {pack : Bool} {slots : Nat}
    {toks : List (List UInt8)} {len : Int} {fmt : UInt8}
    (ts : List Token) {cache : List CacheFn}
    (h : argcacheLoop slots pack toks len fmt (ts.map (Token.fn pack))
      = .ok (some cache)) :
    ∃ us : List Token, cache = us.map (Token.fn pack) := by
  induction toks generalizing len fmt ts with
  | nil =>
      unfold argcacheLoop at h
      split at h
      · cases h; exact ⟨ts, rfl⟩
      · cases h
  | cons tok toks ih =>
      simp only [argcacheLoop] at h
      split at h
      · cases h
      · next t ht =>
          split at h
          · apply ih (ts ++ [t])
            rw [← h, List.map_append]
            rfl
          · cases h

theorem urpcArgcache_tokens {pack : Bool} {len : Int} {fmt : UInt8}
    {format : Option (List UInt8)} {cache : List CacheFn}
    (h : urpcArgcache len fmt format pack = .ok (some cache)) :
    ∃ ts : List Token, cache = ts.map (Token.fn pack) := by
  unfold urpcArgcache at h
  split at h
  · cases h
  · exact argcacheLoop_tokens [] h

/-- The tokens a cache was made from. -/
def tokensOf (cache : List CacheFn) : List Token :=
  cache.map fun
    | .pack t => t
    | .unpack t => t

/-- A cache for packing packs its tokens. -/
theorem urpcArgcache_pack {len : Int} {fmt : UInt8}
    {format : Option (List UInt8)} {cache : List CacheFn}
    (h : urpcArgcache len fmt format true = .ok (some cache)) :
    cache = (tokensOf cache).map .pack := by
  obtain ⟨ts, rfl⟩ := urpcArgcache_tokens h
  simp [tokensOf, Token.fn]

end Aura.Proofs
