import Aura.Proofs.Iterations

/-!
# Retries

A packer is called again with the next argument whenever the chunk was too
small for it, and nobody looks at whether the chunk has grown. So a string
field may find a slot without a string although its own has one
(`packing_null_iff`), and a loop whose requests are refused may go on forever
or run past the arguments. It comes to its end, whatever the allocator answers,
exactly when no number ever has to ask, and no string that asks runs out of
strings (`packing_ends_iff`).
-/

namespace Aura.Proofs

open Aura.Lib Aura.Ref

/-! ## Where a loop fails -/

section Failing

variable {host : Endian} {L : LuaState} {swap : Bool}

/-- A loop that has fuel left stops in a state it passes: behind the last field
or in an iteration that fails. -/
theorem packLoop_stops (fuel : Nat) :
    ∀ s : PackState,
      packLoop host L swap fuel s.cache s.luaArg s.grants s.chunk
        = .error .outOfFuel ∨
      ∃ t, Passes host L swap s t ∧
        ((t.cache = [] ∧
          packLoop host L swap fuel s.cache s.luaArg s.grants s.chunk
            = .ok t.chunk) ∨
        ∃ fn cache e, t.cache = fn :: cache ∧
          packIter host L swap fn cache t.luaArg t.grants t.chunk
            = .error e ∧
          packLoop host L swap fuel s.cache s.luaArg s.grants s.chunk
            = .error e) := by
  induction fuel with
  | zero =>
      intro s
      cases hcache : s.cache with
      | nil => exact .inr ⟨s, .refl, .inl ⟨hcache, packLoop_done ..⟩⟩
      | cons fn cache => exact .inl rfl
  | succ fuel ih =>
      intro s
      cases hcache : s.cache with
      | nil => exact .inr ⟨s, .refl, .inl ⟨hcache, packLoop_done ..⟩⟩
      | cons fn cache =>
          rw [packLoop_iter]
          cases hiter : packIter host L swap fn cache s.luaArg s.grants
              s.chunk with
          | error e =>
              exact .inr ⟨s, .refl, .inr ⟨fn, cache, e, hcache, hiter, rfl⟩⟩
          | ok t =>
              rw [ok_bind]
              refine (ih t).imp_right ?_
              rintro ⟨u, hpass, hstops⟩
              exact ⟨u, hpass.head ⟨fn, cache, hcache, hiter⟩, hstops⟩

theorem packLoop_fails {e : Fault} (hfuel : e ≠ .outOfFuel) {fuel : Nat}
    {s : PackState}
    (h : packLoop host L swap fuel s.cache s.luaArg s.grants s.chunk
      = .error e) :
    ∃ t fn cache, Passes host L swap s t ∧ t.cache = fn :: cache ∧
      packIter host L swap fn cache t.luaArg t.grants t.chunk
        = .error e := by
  rcases packLoop_stops fuel s with hout | ⟨t, hpass, hstops⟩
  · cases h.symm.trans hout
    exact absurd rfl hfuel
  · rcases hstops with ⟨_, hok⟩ | ⟨fn, cache, e', hcache, hiter, hfails⟩
    · cases h.symm.trans hok
    · cases h.symm.trans hfails
      exact ⟨t, fn, cache, hpass, hcache, hiter⟩

theorem packLoop_ends {fuel : Nat} {d : AuraChunk} {s : PackState}
    (h : packLoop host L swap fuel s.cache s.luaArg s.grants s.chunk = .ok d) :
    ∃ t, Passes host L swap s t ∧ t.cache = [] ∧ t.chunk = d := by
  rcases packLoop_stops fuel s with hout | ⟨t, hpass, hstops⟩
  · cases h.symm.trans hout
  · rcases hstops with ⟨hnil, hok⟩ | ⟨fn, cache, e, _, _, hfails⟩
    · cases h.symm.trans hok
      exact ⟨t, hpass, hnil, rfl⟩
    · cases h.symm.trans hfails

/-- A packer dereferences NULL for want of a string only. -/
theorem packIter_nullDeref {t : Token} {cache : List CacheFn} {n : Nat}
    {grants : Nat → Grant} {c : AuraChunk} (hle : c.size ≤ c.alloc)
    (hmax : (c.alloc : Int) ≤ intMax)
    (h : packIter host L swap (.pack t) cache n grants c
      = .error .nullDeref) : Token.width t L n = none := by
  cases hb : Token.bytes t host swap L n with
  | none =>
      rw [← Token.map_length_bytes t host swap, hb]
      rfl
  | some bs =>
      by_cases hfit : c.size + bs.length ≤ c.alloc
      · rw [packIter_fits hb hmax hfit] at h
        cases h
      · by_cases hint : c.size + cInt bs.length ≤ c.alloc
        · rw [packIter_overruns hb hle hint (by omega)] at h
          cases h
        · by_cases hgrow : c.alloc + 2 * cInt bs.length ≤ intMax
          · obtain ⟨d, _, _, _, hrun⟩ :=
              packIter_grows grants hb hle (by omega) hgrow
            rw [hrun] at h
            cases h
          · rw [packIter_overflows hb hle (by omega) (by omega)] at h
            cases h

theorem Token.width_eq_none {t : Token} {n : Nat} :
    Token.width t L n = none ↔ t = .string ∧ luaToString L n = none := by
  cases t <;> simp [Token.width, Token.int?]

end Failing

/-! ## Strings that are not there -/

/-- Every field that is next can be laid, or the block grown for it, and a
string field finds a string or a number. -/
def StringsMet (L : LuaState) (l₀ : Layout) : Prop :=
  ∀ l, Reaches L l₀ l → l.Open L ∧
    (l.tokens.head? = some .string → luaToString L l.arg ≠ none)

/-- The widths of the fields `ts`, each with its own slot from `n` on; a NULL
string has none. -/
def foundAll (L : LuaState) : Nat → List Token → Nat
  | _, [] => 0
  | n, t :: ts => (Token.width t L n).getD 0 + foundAll L (n + 1) ts

/-- Packing hands no NULL over, and does not go astray before it could. -/
def HandsNoNull (r : Res (Option AuraChunk)) : Prop :=
  ∀ e, r = .error e → e ≠ .nullDeref ∧ ¬ Escapes e

section Strings

variable {host : Endian} {L : LuaState} {swap : Bool}

theorem StringsMet.width {t : Token} {ts : List Token} {alloc size n : Nat}
    {granted : Nat → Bool} (h : StringsMet L ⟨alloc, size, t :: ts, n, granted⟩) :
    ∃ w, Token.width t L n = some w := by
  refine Option.ne_none_iff_exists'.mp fun hnone => ?_
  obtain ⟨rfl, hstr⟩ := Token.width_eq_none.mp hnone
  exact (h _ .refl).2 rfl hstr

theorem StringsMet.of_reaches {l₀ l : Layout} (h : StringsMet L l₀)
    (hl : Reaches L l₀ l) : StringsMet L l :=
  fun _ hl' => h _ (hl.trans hl')

/-- As long as the strings are met, the fuel is all a loop can lack. -/
theorem packLoop_met {ts : List Token} {s : PackState} (hs : Packing ts s)
    (hmet : StringsMet L (s.layout ts)) {fuel : Nat} {e : Fault}
    (h : packLoop host L swap fuel s.cache s.luaArg s.grants s.chunk
      = .error e) : e = .outOfFuel := by
  by_contra hfuel
  obtain ⟨t, fn, cache, hpass, hcache, hiter⟩ := packLoop_fails hfuel h
  obtain ⟨us, ht, hreach, _⟩ := passes_reaches hs hpass
  obtain ⟨hopen, hfound⟩ := hmet _ hreach
  obtain rfl := packIter_open ht hopen hcache hiter
  cases us with
  | nil =>
      rw [ht.cache] at hcache
      cases hcache
  | cons u us =>
      rw [ht.cache] at hcache
      cases hcache
      obtain ⟨rfl, hnone⟩ :=
        Token.width_eq_none.mp (packIter_nullDeref ht.inside ht.small hiter)
      exact hfound rfl hnone

/-- And where they are not, some amount of fuel takes it to the failure. -/
theorem stringsMet_of_packLoop {ts : List Token} {s : PackState}
    (hs : Packing ts s)
    (h : ∀ fuel e, packLoop host L swap fuel s.cache s.luaArg s.grants s.chunk
      = .error e → e ≠ .nullDeref ∧ ¬ Escapes e) :
    StringsMet L (s.layout ts) := by
  intro l hl
  obtain ⟨us, t, hpass, ht, rfl⟩ := reaches_passes host swap hs hl
  obtain ⟨k, hrun⟩ := packLoop_passes hpass
  have hone := h (1 + k)
  rw [hrun, ht.cache] at hone
  constructor
  · by_contra hclosed
    rcases packLoop_closed host swap hclosed ht.inside 0 with herr | herr
    · exact (hone _ herr).2 (.inl rfl)
    · exact (hone _ herr).2 (.inr rfl)
  · intro hhead hnone
    cases us with
    | nil => cases hhead
    | cons u us =>
        cases hhead
        have hb : Token.bytes .string host swap L t.luaArg = none := by
          rw [← Option.map_eq_none_iff, Token.map_length_bytes,
            Token.width_eq_none]
          exact ⟨rfl, hnone⟩
        exact (hone _ (packLoop_null hb)).1 rfl

/-- With room for every field in its own slot, the own slots decide. -/
theorem stringsMet_roomy {ts : List Token} :
    ∀ {alloc size n : Nat} {granted : Nat → Bool},
      size + foundAll L n ts ≤ alloc →
      (StringsMet L ⟨alloc, size, ts, n, granted⟩ ↔
        ∀ i, ts[i]? = some .string → luaToString L (n + i) ≠ none) := by
  induction ts with
  | nil =>
      intro alloc size n granted _
      refine iff_of_true (fun l hl => ?_) (fun i hi => nomatch hi)
      rcases Relation.ReflTransGen.cases_head hl with rfl | ⟨l', hlays, _⟩
      · exact ⟨nofun, nofun⟩
      · cases hlays
  | cons t ts ih =>
      intro alloc size n granted hroom
      rw [foundAll] at hroom
      cases hw : Token.width t L n with
      | none =>
          obtain ⟨rfl, hnone⟩ := Token.width_eq_none.mp hw
          exact iff_of_false (fun h => (h _ .refl).2 rfl hnone)
            (fun h => h 0 rfl hnone)
      | some w =>
          rw [hw, Option.getD_some] at hroom
          have hnext := @ih alloc (size + w) (n + 1) granted (by omega)
          have hfirst : Lays L ⟨alloc, size, t :: ts, n, granted⟩
              ⟨alloc, size + w, ts, n + 1, granted⟩ :=
            .fits hw (by omega)
          have hhead : t = .string → luaToString L n ≠ none := fun ht hnone =>
            Option.some_ne_none w (hw.symm.trans
              (Token.width_eq_none.mpr ⟨ht, hnone⟩))
          constructor
          · intro h i hi
            cases i with
            | zero =>
                cases hi
                exact hhead rfl
            | succ i =>
                rw [Nat.add_comm i, ← Nat.add_assoc]
                exact hnext.mp (h.of_reaches (.single hfirst)) i hi
          · intro h l hl
            rcases Relation.ReflTransGen.cases_head hl with rfl | ⟨l', hlays, hrest⟩
            · refine ⟨fun t' ht' w' hw' => ?_, fun ht => ?_⟩
              · cases ht'
                cases hw.symm.trans hw'
                exact .inl (show size + w ≤ alloc by omega)
              · cases ht
                exact hhead rfl
            · cases hlays with
              | fits hw' _ =>
                  cases hw.symm.trans hw'
                  refine hnext.mpr (fun i hi => ?_) l hrest
                  rw [Nat.add_assoc, Nat.add_comm 1]
                  exact h (i + 1) hi
              | grows hw' hshort =>
                  cases hw.symm.trans hw'
                  have hle := cInt_natCast_le w
                  omega

end Strings

/-- The loop `urpc_pack_data` enters, once it has its chunk. -/
theorem packStart_packing (junk : Nat → UInt8) {sz reserved : Nat}
    (hres : (reserved : Int) ≤ cInt sz) (ts : List Token)
    (grants : Nat → Grant) :
    ∃ c, auraChunkAllocate (some junk) (cInt sz) = some c ∧
      Packing ts (packStart (ts.map .pack) grants c reserved) ∧
      (packStart (ts.map .pack) grants c reserved).layout ts
        = startLayout ts grants sz reserved := by
  obtain ⟨c, hc, _⟩ := auraChunkAllocate_granted junk
    (show 0 ≤ cInt sz by omega)
  have halloc := auraChunkAllocate_alloc hc
  refine ⟨c, hc, ⟨rfl, show reserved ≤ c.alloc by omega, halloc ▸ cInt_le sz⟩, ?_⟩
  rw [startLayout, ← halloc]
  rfl

/-- Packing hands no NULL to `strlen` exactly when every field that is next can
be laid or grown for, and no string field is next at a slot without a string;
while nothing has to grow those are the fields' own slots. -/
theorem packing_null_iff (host : Endian) (L : LuaState) (swap : Bool)
    {len : Int} {fmt : UInt8} {format : Option (List UInt8)}
    {cache : List CacheFn}
    (hcache : urpcArgcache len fmt format true = .ok (some cache))
    (mem : Grant) (grants : Nat → Grant) {sz reserved : Nat}
    (hres : (reserved : Int) ≤ cInt sz) :
    ((∀ fuel, HandsNoNull
        (urpcPackData host mem grants fuel L sz reserved (some cache) swap)) ↔
      mem = none ∨
        StringsMet L (startLayout (tokensOf cache) grants sz reserved)) ∧
    (reserved + foundAll L stackStart (tokensOf cache) ≤ cInt sz →
      (StringsMet L (startLayout (tokensOf cache) grants sz reserved) ↔
        ∀ i, (tokensOf cache)[i]? = some .string →
          luaToString L (stackStart + i) ≠ none)) := by
  have hts := urpcArgcache_pack hcache
  generalize tokensOf cache = ts at *
  subst hts
  refine ⟨?_, fun hroom => stringsMet_roomy (by omega)⟩
  cases mem with
  | none => exact iff_of_true (fun fuel e h => by cases h) (.inl rfl)
  | some junk =>
      obtain ⟨c, hc, hstart, hlayout⟩ :=
        packStart_packing junk hres ts grants
      rw [or_iff_right (Option.some_ne_none junk), ← hlayout]
      have hrun : ∀ fuel, urpcPackData host (some junk) grants fuel L sz
          reserved (some (ts.map .pack)) swap
            = some <$> packLoop host L swap fuel (ts.map .pack) stackStart
              grants { c with size := reserved } :=
        fun fuel => urpcPackData_of_allocated hc
      constructor
      · intro h
        refine @stringsMet_of_packLoop host L swap _ _ hstart
          fun fuel e he => h fuel e ?_
        rw [hrun]
        exact map_eq_error.mpr he
      · intro h fuel e he
        rw [hrun] at he
        cases packLoop_met hstart h (map_eq_error.mp he)
        exact ⟨nofun, nofun⟩

/-- A stack without arguments. -/
def noArguments : LuaState := ⟨[.nil, .nil], fun _ => [], fun _ => none⟩

/-- A number serves for a string. -/
theorem packing_null_stack79 : HandsNoNull
    (urpcPackData .little (some fun _ => 0) (fun _ => none) 3 stack79 4 0
      (some [.pack .string, .pack .u8]) false) := by
  obtain ⟨hiff, hroomy⟩ := @packing_null_iff .little stack79 false 0 0 _ _
    (urpcArgcache_formatOf true [.string, .u8] 0 0) (some fun _ => 0)
    (fun _ => none) 4 0 (by decide)
  refine hiff.mpr (.inr ((hroomy (by decide)).mpr fun i hi => ?_)) 3
  match i with
  | 0 => decide
  | 1 => cases hi
  | i + 2 => cases hi

/-- A string field and no argument for it. -/
theorem packing_null : ¬ ∀ (L : LuaState) (format : Option (List UInt8))
    (cache : List CacheFn) (grants : Nat → Grant) (fuel sz reserved : Nat),
    urpcArgcache 0 0 format true = .ok (some cache) → reserved ≤ sz →
    HandsNoNull (urpcPackData .little (some fun _ => 0) grants fuel L sz
      reserved (some cache) false) := by
  intro h
  exact (h noArguments (some (formatOf [.string])) [.pack .string]
    (fun _ => none) 1 256 0 (urpcArgcache_formatOf true [.string] 0 0)
    (by decide) .nullDeref rfl).1 rfl

/-! ## Loops that do not end -/

/-- The packing comes to an end: NULL, or a chunk the loop has left behind the
last field. -/
def Ends (host : Endian) (L : LuaState) (swap : Bool) (mem : Grant)
    (grants : Nat → Grant) (sz reserved : Nat) (cache : List CacheFn) : Prop :=
  ∃ n, ∀ fuel, n ≤ fuel → ∃ r,
    urpcPackData host mem grants fuel L sz reserved (some cache) swap = .ok r ∧
    ∀ d ∈ r, ∃ c s, auraChunkAllocate mem (cInt sz) = some c ∧
      Passes host L swap (packStart cache grants c reserved) s ∧
      s.cache = [] ∧ s.chunk = d

/-- Every number field that is next has its room. -/
def NumbersFit (L : LuaState) (l₀ : Layout) : Prop :=
  ∀ l, Reaches L l₀ l → ∀ t ∈ l.tokens.head?, ∀ signed k,
    Token.int? t = some (signed, k) → l.size + k ≤ l.alloc

/-- Whatever the allocator answers, there is room for every number that is
next, and a string for every string field. -/
def NeverStuck (L : LuaState) (ts : List Token) (sz reserved : Nat) : Prop :=
  ∀ grants, StringsMet L (startLayout ts grants sz reserved) ∧
    NumbersFit L (startLayout ts grants sz reserved)

section Ending

variable {host : Endian} {L : LuaState} {swap : Bool}

theorem NumbersFit.of_reaches {l₀ l : Layout} (h : NumbersFit L l₀)
    (hl : Reaches L l₀ l) : NumbersFit L l :=
  fun _ hl' => h _ (hl.trans hl')

/-- What is left to do: a field for each token, and the arguments a string may
still go through for want of room. -/
def Layout.todo (L : LuaState) (l : Layout) : Nat :=
  (L.stack.length + 1 - l.arg) + l.tokens.length

/-- A field that is laid is one token less, and a string that has its block
grown leaves an argument behind. -/
theorem Lays.todo_lt {l l' : Layout} (h : Lays L l l') (hmet : StringsMet L l)
    (hfit : NumbersFit L l) : l'.todo L < l.todo L := by
  cases h with
  | fits =>
      simp only [Layout.todo, List.length_cons]
      omega
  | @grows alloc _ size w n t ts g hw hshort =>
      cases hint : Token.int? t with
      | some sk =>
          obtain ⟨signed, k⟩ := sk
          obtain rfl : k = w := by
            unfold Token.width at hw
            rw [hint] at hw
            exact Option.some.inj hw
          have hroom : size + k ≤ alloc := hfit _ .refl t rfl signed k hint
          have hle := cInt_natCast_le k
          omega
      | none =>
          have hfound : luaToString L n ≠ none := by
            unfold Token.width at hw
            rw [hint] at hw
            intro hnone
            rw [hnone] at hw
            cases hw
          have harg : n ≤ L.stack.length := by
            by_contra habove
            obtain ⟨m, rfl⟩ : ∃ m, n = m + 1 :=
              Nat.exists_eq_add_one.mpr (by omega)
            apply hfound
            rw [luaToString, slot_absent (by omega)]
          simp only [Layout.todo]
          omega

/-- Fuel for all that is left to do is enough. -/
theorem packLoop_of_met (fuel : Nat) :
    ∀ {ts : List Token} {n : Nat} {grants : Nat → Grant} {c : AuraChunk},
      c.size ≤ c.alloc → (c.alloc : Int) ≤ intMax →
      StringsMet L (layoutOf ts n grants c) →
      NumbersFit L (layoutOf ts n grants c) →
      (layoutOf ts n grants c).todo L ≤ fuel →
      ∃ d, packLoop host L swap fuel (ts.map .pack) n grants c = .ok d := by
  induction fuel with
  | zero =>
      intro ts n grants c _ _ _ _ htodo
      obtain rfl : ts = [] := by
        simp only [Layout.todo, layoutOf] at htodo
        exact List.length_eq_zero_iff.mp (by omega)
      exact ⟨c, packLoop_done⟩
  | succ fuel ih =>
      intro ts n grants c hle hmax hmet hfit htodo
      cases ts with
      | nil => exact ⟨c, packLoop_done⟩
      | cons t ts =>
          obtain ⟨w, hw⟩ := hmet.width
          obtain ⟨l, hl⟩ := (hmet _ .refl).1.lays hle hw
          have hless := hl.todo_lt hmet hfit
          obtain ⟨us, m, gs, d, rfl, hle', hmax', hrun⟩ :=
            packLoop_lays host swap hl hle hmax
          rw [hrun]
          exact ih hle' hmax' (hmet.of_reaches (.single hl))
            (hfit.of_reaches (.single hl)) (by omega)

/-- A number without room is asked for again and again. -/
theorem packLoop_refused {t : Token} {ts : List Token} {signed : Bool}
    {k : Nat} (ht : Token.int? t = some (signed, k)) (fuel : Nat) :
    ∀ {n : Nat} {grants : Nat → Grant} {c : AuraChunk},
      (∀ i, (grants i).isSome = false) → c.size ≤ c.alloc →
      (c.alloc : Int) ≤ intMax → c.alloc < c.size + k →
      ∀ d, packLoop host L swap fuel ((t :: ts).map .pack) n grants c
        ≠ .ok d := by
  induction fuel with
  | zero =>
      intro n grants c _ _ _ _ d hd
      cases hd
  | succ fuel ih =>
      intro n grants c hno hle hmax hroom d hd
      rw [List.map_cons, packLoop_iter] at hd
      obtain ⟨s, hs, hd⟩ := bind_eq_ok.mp hd
      obtain ⟨bs, hb, ⟨hfits, _⟩ | ⟨hshort, _, c', rfl, hsize, halloc, _⟩⟩ :=
        packIter_eq_ok hle hmax hs
      · rw [Token.bytes, ht] at hb
        cases hb
        rw [length_numberBytes] at hfits
        omega
      · rw [hno 0] at halloc
        have hsame : c'.alloc = c.alloc := by simpa using halloc
        exact ih (fun i => hno (i + 1)) (by rw [hsame, hsize]; exact hle)
          (by rw [hsame]; exact hmax) (by rw [hsame, hsize]; exact hroom) d hd

/-- The answers that lead to a layout can be given with nothing but refusals
behind them. -/
theorem Reaches.refusing {l₀ l : Layout} (h : Reaches L l₀ l) :
    ∃ g, Reaches L { l₀ with granted := g }
      { l with granted := fun _ => false } := by
  induction h using Relation.ReflTransGen.head_induction_on with
  | refl => exact ⟨_, .refl⟩
  | head hlays _ ih =>
      obtain ⟨g, hg⟩ := ih
      cases hlays with
      | fits hw hfit => exact ⟨g, hg.head (.fits hw hfit)⟩
      | @grows _ _ _ _ _ _ _ granted hw hshort hmax halloc =>
          let g' : Nat → Bool := fun i => Nat.casesOn i (granted 0) g
          exact ⟨g', hg.head (.grows hw hshort hmax halloc)⟩

/-- From a layout where a field has not what it takes, no fuel leads to the
end, if only refusals are left. -/
theorem packLoop_never {ts : List Token} {n : Nat} {grants : Nat → Grant}
    {c : AuraChunk} (hle : c.size ≤ c.alloc) (hmax : (c.alloc : Int) ≤ intMax)
    (hno : ∀ i, (grants i).isSome = false)
    (h : ¬ ((layoutOf ts n grants c).Open L ∧
        (ts.head? = some .string → luaToString L n ≠ none) ∧
        ∀ t ∈ ts.head?, ∀ signed k, Token.int? t = some (signed, k) →
          c.size + k ≤ c.alloc)) (fuel : Nat) (d : AuraChunk) :
    packLoop host L swap fuel (ts.map .pack) n grants c ≠ .ok d := by
  intro hd
  apply h
  cases ts with
  | nil => exact ⟨nofun, nofun, nofun⟩
  | cons t ts =>
      refine ⟨?_, ?_, ?_⟩
      · by_contra hclosed
        cases fuel with
        | zero => cases hd
        | succ fuel =>
            rcases packLoop_closed host swap hclosed hle fuel with herr | herr
            · cases herr.symm.trans hd
            · cases herr.symm.trans hd
      · intro hhead hnone
        cases hhead
        cases fuel with
        | zero => cases hd
        | succ fuel =>
            have hb : Token.bytes .string host swap L n = none := by
              rw [← Option.map_eq_none_iff, Token.map_length_bytes,
                Token.width_eq_none]
              exact ⟨rfl, hnone⟩
            cases (packLoop_null hb).symm.trans hd
      · intro t' ht' signed k hint
        cases ht'
        by_contra hshort
        exact packLoop_refused hint fuel hno hle hmax (by omega) d hd

/-- A loop that ends whatever the allocator answers is never stuck: the answers
that lead to where it is could be followed by refusals. -/
theorem neverStuck_of_ends {ts : List Token} {sz reserved : Nat}
    (hres : (reserved : Int) ≤ cInt sz)
    (h : ∀ mem grants,
      Ends host L swap mem grants sz reserved (ts.map .pack)) :
    NeverStuck L ts sz reserved := by
  have hall : ∀ grants l, Reaches L (startLayout ts grants sz reserved) l →
      l.Open L ∧ (l.tokens.head? = some .string → luaToString L l.arg ≠ none) ∧
      ∀ t ∈ l.tokens.head?, ∀ signed k, Token.int? t = some (signed, k) →
        l.size + k ≤ l.alloc := by
    intro grants l hl
    by_contra hbad
    obtain ⟨g, hg⟩ := hl.refusing
    let refusing : Nat → Grant := fun i => if g i then some fun _ => 0 else none
    obtain ⟨c, hc, hstart, hlayout⟩ :=
      packStart_packing (fun _ => 0) hres ts refusing
    have hgranted : (fun i => (refusing i).isSome) = g := by
      funext i
      cases hi : g i <;> simp [refusing, hi]
    rw [startLayout, hgranted] at hlayout
    dsimp only [startLayout] at hg
    rw [← hlayout] at hg
    obtain ⟨us, n, gs, d, k, hl', hle, hmax, hrun⟩ := packLoop_reaches host
      swap hg hstart.inside hstart.small
    have hrefused : ∀ i, (gs i).isSome = false := fun i =>
      (congrFun (congrArg Layout.granted hl') i).symm
    obtain ⟨m, hm⟩ := h (some fun _ => 0) refusing
    obtain ⟨r, hr, _⟩ := hm (m + k) (Nat.le_add_right m k)
    rw [urpcPackData_of_allocated hc] at hr
    obtain ⟨e, he, _⟩ := map_eq_ok.mp hr
    obtain ⟨alloc, size, tokens, arg, granted⟩ := l
    rw [layoutOf, Layout.mk.injEq] at hl'
    obtain ⟨rfl, rfl, rfl, rfl, _⟩ := hl'
    exact packLoop_never hle hmax hrefused hbad m e ((hrun m).symm.trans he)
  exact fun grants => ⟨fun l hl => ⟨(hall grants l hl).1, (hall grants l hl).2.1⟩,
    fun l hl => (hall grants l hl).2.2⟩

theorem ends_of_neverStuck {ts : List Token} {sz reserved : Nat}
    (hres : (reserved : Int) ≤ cInt sz) (h : NeverStuck L ts sz reserved)
    (mem : Grant) (grants : Nat → Grant) :
    Ends host L swap mem grants sz reserved (ts.map .pack) := by
  cases mem with
  | none => exact ⟨0, fun fuel _ => ⟨none, rfl, nofun⟩⟩
  | some junk =>
      obtain ⟨c, hc, hstart, hlayout⟩ :=
        packStart_packing junk hres ts grants
      obtain ⟨hmet, hfit⟩ := h grants
      rw [← hlayout] at hmet hfit
      refine ⟨((packStart (ts.map .pack) grants c reserved).layout ts).todo L,
        fun fuel hfuel => ?_⟩
      obtain ⟨d, hd⟩ := @packLoop_of_met host L swap fuel _ _ _ _
        hstart.inside hstart.small hmet hfit hfuel
      refine ⟨some d, ?_, ?_⟩
      · rw [urpcPackData_of_allocated hc]
        exact congrArg (some <$> ·) hd
      · rintro _ ⟨⟩
        obtain ⟨s, hpass, hnil, hchunk⟩ := packLoop_ends
          (s := packStart (ts.map .pack) grants c reserved) hd
        exact ⟨c, s, hc, hpass, hnil, hchunk⟩

/-! ### Arguments of the widths of the fields -/

theorem Token.width_eq_span {t : Token} {n : Nat}
    (h : Token.accepts t (L.slot n) = true) :
    Token.width t L n = some (Token.span t (L.slot n)) := by
  rw [← Token.map_length_bytes t .little false,
    Token.bytes_eq_encode .little false h, Option.map_some,
    Token.length_encode h]

theorem foundAll_eq_spanAll {ts : List Token} {vs : List LuaValue}
    (hm : Matches ts vs) {n : Nat} (hL : L.stack.drop n = vs) :
    foundAll L (n + 1) ts = spanAll ts vs ∧
      ∀ i, ts[i]? = some .string → luaToString L (n + 1 + i) ≠ none := by
  induction hm generalizing n with
  | nil => exact ⟨rfl, nofun⟩
  | @cons t v ts vs ht _ ih =>
      obtain ⟨hslot, hrest⟩ := slot_of_drop hL
      obtain ⟨hspan, hstrings⟩ := ih hrest
      rw [← hslot] at ht
      have hw := Token.width_eq_span ht
      constructor
      · rw [foundAll, hw, hspan, spanAll_cons, hslot]
        rfl
      · intro i hi hnone
        cases i with
        | zero =>
            cases hi
            rw [Token.width_eq_none.mpr ⟨rfl, hnone⟩] at hw
            cases hw
        | succ i =>
            refine hstrings i hi ?_
            rw [← hnone]
            congr 1
            omega

/-- With room for all fields, each number has its own. -/
theorem numbersFit_roomy {ts : List Token} {alloc size n : Nat}
    {granted : Nat → Bool} (hroom : size + foundAll L n ts ≤ alloc) :
    NumbersFit L ⟨alloc, size, ts, n, granted⟩ := by
  have hkeep : ∀ l, Reaches L ⟨alloc, size, ts, n, granted⟩ l →
      l.size + foundAll L l.arg l.tokens ≤ l.alloc := by
    intro l hl
    induction hl with
    | refl => exact hroom
    | tail _ hlays ih =>
        cases hlays with
        | fits hw _ =>
            simp only [foundAll, hw, Option.getD_some] at ih ⊢
            omega
        | @grows _ _ _ w _ _ _ _ hw hshort =>
            have hle := cInt_natCast_le w
            simp only [foundAll, hw, Option.getD_some] at ih
            omega
  intro l hl t ht signed k hint
  obtain ⟨alloc, size, tokens, arg, granted⟩ := l
  have hleft := hkeep _ hl
  cases tokens with
  | nil => cases ht
  | cons t' ts =>
      cases ht
      have hw : Token.width t L arg = some k := by
        unfold Token.width
        rw [hint]
      simp only [foundAll, hw, Option.getD_some] at hleft ⊢
      omega

/-- With nothing but numbers, each of them with its room, there is room for
all. -/
theorem NumbersFit.roomy {ts : List Token} (hts : .string ∉ ts) :
    ∀ {alloc size n : Nat} {g : Nat → Bool}, size ≤ alloc →
      NumbersFit L ⟨alloc, size, ts, n, g⟩ →
      size + foundAll L n ts ≤ alloc := by
  induction ts with
  | nil => exact fun hle _ => hle
  | cons t ts ih =>
      intro alloc size n g hle h
      have hint : ∃ sk, Token.int? t = some sk := by
        refine Option.ne_none_iff_exists'.mp fun hnone => hts ?_
        cases t with
        | string => exact List.mem_cons_self ..
        | s8 | u8 | s16 | u16 | s32 | u32 => cases hnone
      obtain ⟨⟨signed, k⟩, hint⟩ := hint
      have hw : Token.width t L n = some k := by
        unfold Token.width
        rw [hint]
      have hroom : size + k ≤ alloc := h _ .refl t rfl signed k hint
      have hrest := ih (fun hmem => hts (List.mem_cons_of_mem t hmem)) hroom
        (h.of_reaches (.single (.fits hw hroom)))
      rw [foundAll, hw, Option.getD_some]
      omega

end Ending

/-- Packing ends, whatever the allocator answers, exactly when it is never
stuck: no number is ever next without its room, no string field without a
string, and no grow leaves the range of an `int`. With arguments of the fields'
types, room for all of them is enough; and where there are no strings, nothing
less is. -/
theorem packing_ends_iff (host : Endian) (L : LuaState) (swap : Bool)
    {len : Int} {fmt : UInt8} {format : Option (List UInt8)}
    {cache : List CacheFn}
    (hcache : urpcArgcache len fmt format true = .ok (some cache))
    {sz reserved : Nat} (hres : (reserved : Int) ≤ cInt sz) :
    ((∀ mem grants, Ends host L swap mem grants sz reserved cache) ↔
      NeverStuck L (tokensOf cache) sz reserved) ∧
    (Matches (tokensOf cache) (L.stack.drop 2) →
      ((reserved + spanAll (tokensOf cache) (L.stack.drop 2) : Nat) ≤ cInt sz →
        NeverStuck L (tokensOf cache) sz reserved) ∧
      (.string ∉ tokensOf cache → NeverStuck L (tokensOf cache) sz reserved →
        (reserved + spanAll (tokensOf cache) (L.stack.drop 2) : Nat)
          ≤ cInt sz)) := by
  have hts := urpcArgcache_pack hcache
  generalize tokensOf cache = ts at *
  subst hts
  refine ⟨⟨neverStuck_of_ends hres, ends_of_neverStuck hres⟩,
    fun hm => ⟨fun hroom grants => ?_, fun hnumbers hnever => ?_⟩⟩
  · obtain ⟨hspan, hstrings⟩ := foundAll_eq_spanAll (n := 2) hm rfl
    have hfound : reserved + foundAll L stackStart ts ≤ (cInt sz).toNat := by
      rw [show stackStart = 2 + 1 from rfl, hspan]
      omega
    rw [startLayout]
    exact ⟨(stringsMet_roomy hfound).mpr hstrings, numbersFit_roomy hfound⟩
  · obtain ⟨hspan, _⟩ := foundAll_eq_spanAll (n := 2) hm rfl
    have hroomy := (hnever fun _ => none).2.roomy hnumbers (by omega)
    rw [show stackStart = 2 + 1 from rfl, hspan] at hroomy
    omega

theorem packing_ends_79 : Ends .little stack79 false (some fun _ => 0)
    (fun _ => none) 4 2 [.pack .u8, .pack .u8] := by
  obtain ⟨hiff, hplain⟩ := @packing_ends_iff .little stack79 false 0 0 _ _
    (urpcArgcache_formatOf true [.u8, .u8] 0 0) 4 2 (by decide)
  exact hiff.mpr ((hplain (.cons rfl (.cons rfl .nil))).1 (by decide)) _ _

/-- A chunk full of reserved bytes and an allocator that has no more. -/
theorem packing_endless : ¬ ∀ (L : LuaState) (format : Option (List UInt8))
    (cache : List CacheFn) (grants : Nat → Grant) (sz reserved : Nat),
    urpcArgcache 0 0 format true = .ok (some cache) →
    Matches (tokensOf cache) (L.stack.drop 2) → reserved ≤ sz →
    Ends .little L false (some fun _ => 0) grants sz reserved cache := by
  intro h
  obtain ⟨n, hn⟩ := h
    ⟨[.nil, .nil, .number (7 : Int)], fun _ => [], fun _ => none⟩
    (some (formatOf [.u8])) [.pack .u8] (fun _ => none) 1 1
    (urpcArgcache_formatOf true [.u8] 0 0) (.cons rfl .nil) (Nat.le_refl 1)
  obtain ⟨r, hr, _⟩ := hn n (Nat.le_refl n)
  rw [urpcPackData_of_allocated (show auraChunkAllocate (some fun _ => 0)
    (cInt (1 : Nat)) = some ⟨[0], 0⟩ by decide)] at hr
  obtain ⟨d, hd, _⟩ := map_eq_ok.mp hr
  exact @packLoop_refused _ _ _ .u8 [] _ _ rfl n _ _ ⟨[0], 1⟩ (fun _ => rfl)
    (Nat.le_refl 1) (by decide) (Nat.lt_succ_self 1) d hd

end Aura.Proofs
