import Aura.Lib.Run

/-!
# Machines that wait for a number of symbols

A collector owes itself `need` symbols. Fragments of its input are absorbed
one after another, each at most as long as what is still owed, and the
moment nothing is owed the machine fires: it looks at what it collected and
decides what to wait for next. Readers of length-prefixed protocols are of
this shape.

The one thing such a machine promises is that it cannot see how its input
was cut. Absorbing a fragment is absorbing its symbols one by one, because
no proper prefix of an admissible fragment settles the debt; so every
admissible delivery is the symbol-by-symbol feed of the same stream
(`Collector.deliver_eq_feed`), and two deliveries of one stream agree on the
final state and on every firing along the way. A firing may depend on its
surroundings (an allocator, say): each read brings its own, and it is enough
that they all do the same in the states the stream leads through.
-/

namespace Aura.Lib

/-- A machine that collects symbols of type `β` until its debt is settled.
`call` is what a firing shows to the outside: it is logged, nothing more. -/
structure Collector (σ β ε τ : Type) where
  need : σ → Nat
  absorb : σ → List β → Except ε σ
  fire : σ → Except ε σ
  call : σ → τ
  need_absorb : ∀ {s t : σ} {bs : List β},
    absorb s bs = .ok t → need t = need s - bs.length
  absorb_append : ∀ (s : σ) (bs cs : List β),
    absorb s (bs ++ cs) = absorb s bs >>= fun t => absorb t cs

namespace Collector

variable {σ β ε τ : Type} (m : Collector σ β ε τ)

/-- One read: the fragment is absorbed, and a settled debt fires `f`. -/
def readBy (f : σ → Except ε σ) (s : σ) (bs : List β) :
    Except ε (σ × List τ) := do
  let t ← m.absorb s bs
  if m.need t = 0 then
    let u ← f t
    pure (u, [m.call t])
  else pure (t, [])

abbrev read (s : σ) (bs : List β) : Except ε (σ × List τ) :=
  m.readBy m.fire s bs

/-- What one read of a delivery brings: a fragment or nothing, and the way to
fire. -/
abbrev Read (σ β ε : Type) := Option (List β) × (σ → Except ε σ)

/-- A delivery is a sequence of reads. -/
def deliver : σ → List (Read σ β ε) → Except ε (σ × List τ)
  | s, [] => pure (s, [])
  | s, (none, _) :: rs => deliver s rs
  | s, (some bs, f) :: rs => do
      let (t, log) ← m.readBy f s bs
      let (u, log') ← deliver t rs
      pure (u, log ++ log')

/-- The reference delivery: every read brings one symbol. -/
def feed (s : σ) : List β → Except ε (σ × List τ)
  | [] => pure (s, [])
  | b :: bs => do
      let (t, log) ← m.read s [b]
      let (u, log') ← feed t bs
      pure (u, log ++ log')

/-- The stream a delivery brings. -/
def stream (rs : List (Read σ β ε)) : List β :=
  (rs.filterMap Prod.fst).flatten

/-- No read brings more than the machine asked for, and none that brings
anything brings the empty fragment. -/
def Admissible : σ → List (Read σ β ε) → Prop
  | _, [] => True
  | s, (none, _) :: rs => Admissible s rs
  | s, (some bs, f) :: rs =>
      0 < bs.length ∧ bs.length ≤ m.need s ∧
        ∀ t log, m.readBy f s bs = .ok (t, log) → Admissible t rs

/-- Every firing the stream leads to happens in a state with `P`. -/
def Along (P : σ → Prop) : σ → List β → Prop
  | _, [] => True
  | s, b :: bs => ∀ t, m.absorb s [b] = .ok t →
      if m.need t = 0 then P t ∧ ∀ u, m.fire t = .ok u → Along P u bs
      else Along P t bs

instance decidableAlong {P : σ → Prop} [DecidablePred P] :
    ∀ (s : σ) (bs : List β), Decidable (m.Along P s bs)
  | _, [] => isTrue trivial
  | s, b :: bs =>
      match ht : m.absorb s [b] with
      | .error _ => isTrue fun t h => by rw [ht] at h; cases h
      | .ok t =>
          have : Decidable (∀ u, m.fire t = .ok u → m.Along P u bs) :=
            match hu : m.fire t with
            | .error _ => isTrue fun u h => by cases h
            | .ok u =>
                have : Decidable (m.Along P u bs) := decidableAlong u bs
                decidable_of_iff (m.Along P u bs) (by simp)
          have : Decidable (m.Along P t bs) := decidableAlong t bs
          decidable_of_iff
            (if m.need t = 0 then P t ∧ ∀ u, m.fire t = .ok u → m.Along P u bs
              else m.Along P t bs)
            (by simp only [Along, ht, Except.ok.injEq, forall_eq'])

@[simp] theorem stream_nil : stream ([] : List (Read σ β ε)) = [] := rfl

@[simp] theorem stream_none (f : σ → Except ε σ) (rs : List (Read σ β ε)) :
    stream ((none, f) :: rs) = stream rs := rfl

@[simp] theorem stream_some (bs : List β) (f : σ → Except ε σ)
    (rs : List (Read σ β ε)) :
    stream ((some bs, f) :: rs) = bs ++ stream rs := by
  simp [stream]

theorem feed_append (s : σ) (bs cs : List β) :
    m.feed s (bs ++ cs) = (do
      let (t, log) ← m.feed s bs
      let (u, log') ← m.feed t cs
      pure (u, log ++ log')) := by
  induction bs generalizing s with
  | nil =>
      simp only [List.nil_append, feed, pure_bind, List.nil_append]
      exact (bind_pure _).symm
  | cons b bs ih =>
      simp only [List.cons_append, feed, ih, bind_assoc, pure_bind,
        List.append_assoc]

/-- Feeding on from where a feed ended. -/
theorem feed_append_of {s t : σ} {log : List τ} {bs : List β}
    (h : m.feed s bs = .ok (t, log)) (cs : List β) :
    m.feed s (bs ++ cs) = (do
      let (u, log') ← m.feed t cs
      pure (u, log ++ log')) := by
  rw [feed_append, h]
  rfl

/-- A feed goes on from wherever a part of it ended. -/
theorem feed_rest {s t u : σ} {log log' : List τ} {bs cs : List β}
    (h : m.feed s (bs ++ cs) = .ok (u, log'))
    (hpart : m.feed s bs = .ok (t, log)) :
    ∃ rest, m.feed t cs = .ok (u, rest) ∧ log' = log ++ rest := by
  rw [m.feed_append_of hpart] at h
  obtain ⟨⟨v, rest⟩, hrest, h⟩ := bind_eq_ok.mp h
  cases h
  exact ⟨rest, hrest, rfl⟩

theorem feed_part {s u : σ} {log : List τ} {bs cs : List β}
    (h : m.feed s (bs ++ cs) = .ok (u, log)) :
    ∃ t part, m.feed s bs = .ok (t, part) := by
  rw [feed_append] at h
  obtain ⟨⟨t, part⟩, hpart, _⟩ := bind_eq_ok.mp h
  exact ⟨t, part, hpart⟩

/-- An admissible fragment read at once is the fragment fed symbol by
symbol: only its last symbol can settle the debt. -/
theorem read_eq_feed {s : σ} {bs : List β} (hpos : 0 < bs.length)
    (hle : bs.length ≤ m.need s) : m.read s bs = m.feed s bs := by
  induction bs generalizing s with
  | nil => exact absurd hpos (Nat.lt_irrefl 0)
  | cons b bs ih =>
      cases bs with
      | nil =>
          simp only [feed, pure_bind, List.append_nil]
          exact (bind_pure _).symm
      | cons c cs =>
          have hsplit : m.absorb s (b :: c :: cs)
              = m.absorb s [b] >>= fun t => m.absorb t (c :: cs) :=
            m.absorb_append s [b] (c :: cs)
          rw [feed]
          cases hb : m.absorb s [b] with
          | error e =>
              simp only [readBy, hsplit, hb]
              rfl
          | ok t =>
              have hneed := m.need_absorb hb
              simp only [List.length_cons, List.length_nil] at hneed hle
              have hquiet : m.read s [b] = .ok (t, []) := by
                simp only [readBy, hb]
                exact if_neg (by omega)
              have hrest : m.read s (b :: c :: cs) = m.read t (c :: cs) := by
                simp only [readBy, hsplit, hb]
                rfl
              rw [hrest, hquiet, ih (by simp)
                (by simp only [List.length_cons]; omega)]
              exact (bind_pure _).symm

theorem readBy_congr {f g : σ → Except ε σ} {s : σ} {bs : List β}
    (h : ∀ t, m.absorb s bs = .ok t → m.need t = 0 → f t = g t) :
    m.readBy f s bs = m.readBy g s bs := by
  unfold readBy
  cases ht : m.absorb s bs with
  | error e => rfl
  | ok t =>
      by_cases hz : m.need t = 0
      · rw [ok_bind, ok_bind, if_pos hz, if_pos hz, h t ht hz]
      · rw [ok_bind, ok_bind, if_neg hz, if_neg hz]

/-- An admissible fragment is passed as one: nothing fires before its end. -/
theorem along_absorb {P : σ → Prop} {s t : σ} {bs cs : List β}
    (hpos : 0 < bs.length) (hle : bs.length ≤ m.need s)
    (ht : m.absorb s bs = .ok t) :
    m.Along P s (bs ++ cs) ↔
      if m.need t = 0 then P t ∧ ∀ u, m.fire t = .ok u → m.Along P u cs
      else m.Along P t cs := by
  induction bs generalizing s with
  | nil => exact absurd hpos (Nat.lt_irrefl 0)
  | cons b bs ih =>
      cases bs with
      | nil =>
          constructor
          · exact fun h => h t ht
          · intro h t' ht'
            rw [ht] at ht'
            cases ht'
            exact h
      | cons c bs =>
          have hsplit := m.absorb_append s [b] (c :: bs)
          rw [List.singleton_append, ht] at hsplit
          obtain ⟨u, hu, hut⟩ := bind_eq_ok.mp hsplit.symm
          have hneed := m.need_absorb hu
          simp only [List.length_cons, List.length_nil] at hneed hle
          have hopen : m.need u ≠ 0 := by omega
          rw [← ih (by simp) (by simp only [List.length_cons]; omega) hut]
          constructor
          · intro h
            have hnext := h u hu
            rwa [if_neg hopen] at hnext
          · intro h u' hu'
            rw [hu] at hu'
            cases hu'
            rw [if_neg hopen]
            exact h

/-- An admissible delivery is the symbol-by-symbol feed of its stream, if its
reads fire as the machine does wherever the stream leads. -/
theorem deliver_eq_feed {P : σ → Prop} {s : σ} {rs : List (Read σ β ε)}
    (hfire : ∀ r ∈ rs, ∀ t, P t → r.2 t = m.fire t)
    (h : m.Admissible s rs) (halong : m.Along P s (stream rs)) :
    m.deliver s rs = m.feed s (stream rs) := by
  induction rs generalizing s with
  | nil => rfl
  | cons r rs ih =>
      have hrest : ∀ r ∈ rs, ∀ t, P t → r.2 t = m.fire t :=
        fun r hr => hfire r (List.mem_cons_of_mem _ hr)
      obtain ⟨frag, f⟩ := r
      cases frag with
      | none => exact ih hrest h halong
      | some bs =>
          obtain ⟨hpos, hle, hnext⟩ := h
          rw [stream_some] at halong ⊢
          have hsame : m.readBy f s bs = m.read s bs :=
            m.readBy_congr fun t ht hz => by
              have hat := (m.along_absorb hpos hle ht).mp halong
              rw [if_pos hz] at hat
              exact hfire _ (List.mem_cons_self ..) t hat.1
          rw [deliver, feed_append, ← m.read_eq_feed hpos hle, hsame]
          cases hr : m.read s bs with
          | error e => rfl
          | ok p =>
              obtain ⟨t, log⟩ := p
              have hon : m.Along P t (stream rs) := by
                unfold read readBy at hr
                obtain ⟨a, ha, hr⟩ := bind_eq_ok.mp hr
                have hat := (m.along_absorb hpos hle ha).mp halong
                by_cases hz : m.need a = 0
                · rw [if_pos hz] at hat hr
                  obtain ⟨u, hu, hr⟩ := bind_eq_ok.mp hr
                  cases hr
                  exact hat.2 _ hu
                · rw [if_neg hz] at hat hr
                  cases hr
                  exact hat
              show (m.deliver t rs >>= _) = (m.feed t (stream rs) >>= _)
              rw [ih hrest (hnext t log (hsame ▸ hr)) hon]

/-! ### Known stretches of a stream -/

/-- Feeding `bs` leads from `s` to `t`, with firings where `P` holds only. -/
def Feeds (P : σ → Prop) (s : σ) (bs : List β) (t : σ) (log : List τ) : Prop :=
  m.feed s bs = .ok (t, log) ∧ ∀ cs, m.Along P t cs → m.Along P s (bs ++ cs)

theorem Feeds.nil {P : σ → Prop} (s : σ) : m.Feeds P s [] s [] :=
  ⟨rfl, fun _ h => h⟩

variable {m}

theorem Feeds.trans {P : σ → Prop} {s t u : σ} {bs cs : List β}
    {log log' : List τ} (h : m.Feeds P s bs t log)
    (h' : m.Feeds P t cs u log') : m.Feeds P s (bs ++ cs) u (log ++ log') := by
  constructor
  · rw [feed_append_of m h.1, h'.1]
    rfl
  · intro ds hds
    rw [List.append_assoc]
    exact h.2 _ (h'.2 _ hds)

theorem Feeds.along {P : σ → Prop} {s t : σ} {bs : List β} {log : List τ}
    (h : m.Feeds P s bs t log) : m.Along P s bs := by
  have hend := h.2 [] trivial
  rwa [List.append_nil] at hend

variable (m)

/-- A fragment of exactly the length owed fires once, on what it filled. -/
theorem feeds_fill {P : σ → Prop} {s t u : σ} {bs : List β}
    (hpos : 0 < bs.length) (hlen : bs.length = m.need s)
    (ht : m.absorb s bs = .ok t) (hP : P t) (hu : m.fire t = .ok u) :
    m.Feeds P s bs u [m.call t] := by
  have hzero : m.need t = 0 := by
    rw [m.need_absorb ht]
    omega
  constructor
  · rw [← m.read_eq_feed hpos (Nat.le_of_eq hlen), read, readBy, ht, ok_bind,
      if_pos hzero, hu]
    rfl
  · intro cs hcs
    rw [m.along_absorb hpos (Nat.le_of_eq hlen) ht, if_pos hzero]
    refine ⟨hP, fun v hv => ?_⟩
    rw [hu] at hv
    cases hv
    exact hcs

theorem Along.of_append {P : σ → Prop} {s : σ} {bs cs : List β}
    (h : m.Along P s (bs ++ cs)) : m.Along P s bs := by
  induction bs generalizing s with
  | nil => trivial
  | cons b bs ih =>
      intro t ht
      have hnext := h t ht
      by_cases hz : m.need t = 0
      · rw [if_pos hz] at hnext ⊢
        exact ⟨hnext.1, fun u hu => ih (hnext.2 u hu)⟩
      · rw [if_neg hz] at hnext ⊢
        exact ih hnext

/-- What lies ahead of where a feed ended. -/
theorem Along.rest {P : σ → Prop} {s t : σ} {bs cs : List β} {log : List τ}
    (h : m.Along P s (bs ++ cs)) (hfeed : m.feed s bs = .ok (t, log)) :
    m.Along P t cs := by
  induction bs generalizing s log with
  | nil =>
      cases hfeed
      exact h
  | cons b bs ih =>
      rw [feed, bind_eq_ok] at hfeed
      obtain ⟨⟨u, log₁⟩, hread, hfeed⟩ := hfeed
      obtain ⟨⟨v, log₂⟩, hrest, hfeed⟩ := bind_eq_ok.mp hfeed
      cases hfeed
      obtain ⟨a, ha, hread⟩ := bind_eq_ok.mp hread
      have hnext := h a ha
      by_cases hz : m.need a = 0
      · rw [if_pos hz] at hnext hread
        obtain ⟨w, hw, hread⟩ := bind_eq_ok.mp hread
        cases hread
        exact ih (hnext.2 _ hw) hrest
      · rw [if_neg hz] at hnext hread
        cases hread
        exact ih hnext hrest

/-- A property every read keeps holds wherever a feed leads. -/
theorem feed_invariant {I : σ → Prop}
    (hread : ∀ s b t log, I s → m.read s [b] = .ok (t, log) → I t) :
    ∀ {bs : List β} {s t : σ} {log : List τ},
      I s → m.feed s bs = .ok (t, log) → I t := by
  intro bs
  induction bs with
  | nil =>
      intro s t log hI h
      cases h
      exact hI
  | cons b bs ih =>
      intro s t log hI h
      rw [feed, bind_eq_ok] at h
      obtain ⟨⟨u, log'⟩, hr, h⟩ := h
      rw [bind_eq_ok] at h
      obtain ⟨⟨v, log''⟩, hf, h⟩ := h
      cases h
      exact ih (hread s b u log' hI hr) hf

end Collector

end Aura.Lib
