import Mathlib.Data.List.Basic
import Mathlib.Data.List.Induction
import Aura.Lib.Run
import Aura.Ref.Plugins

/-!
# What becomes of the plugins

Loading plugins amounts to initialising, one after the other, the libraries that
are found (`loadRun_eq`). A transport that comes before the urpc plugin ends the
process, and nothing else does. After that the table leads to the last library
of each transport since the urpc plugin was last loaded, whatever was in it
before (`plugins_loaded`).
-/

namespace Aura.Proofs

open Aura.Lib Aura.Ref

/-! ## The libraries that are found -/

def libraryAt : LibFile → Option Library
  | .library l => some l
  | _ => none

/-- The library a call of `load_plugin` comes by: the first on its path. -/
def loadedBy (c : LoadCall) : Option Library :=
  c.paths.findSome? fun j => libraryAt (c.files (pluginPath j c.name))

def loadedLibraries (cs : List LoadCall) : List Library :=
  cs.filterMap loadedBy

/-- A library is loaded and initialised. -/
def plugIn (s : PluginWorld) (l : Library) : Loaded PluginWorld :=
  auraPluginInit l { s with linked := s.linked || l.plugin = .urpc }

/-- The search goes on over what cannot be loaded, and ends with what can. -/
theorem loadPlugin_eq (files : List UInt8 → LibFile) (name : List UInt8)
    (paths : List (List UInt8)) (s : PluginWorld) :
    loadPlugin files name paths s =
      match paths.findSome? fun j => libraryAt (files (pluginPath j name)) with
      | none => .ok s
      | some l => plugIn s l := by
  induction paths with
  | nil => rfl
  | cons j paths ih =>
      rw [loadPlugin, lPluginLoad, List.findSome?_cons]
      cases hfile : files (pluginPath j name) with
      | unreadable | notLoadable | noInit => exact ih
      | library l =>
          simp only [libraryAt, plugIn]
          cases hinit : auraPluginInit l
              { s with linked := s.linked || l.plugin = .urpc } with
          | error e => rfl
          | ok s' => rfl

theorem loadRun_eq (cs : List LoadCall) (s : PluginWorld) :
    cs.foldlM loadStep s = (loadedLibraries cs).foldlM plugIn s := by
  induction cs generalizing s with
  | nil => rfl
  | cons c cs ih =>
      rw [List.foldlM_cons, loadStep, loadPlugin_eq, loadedLibraries,
        List.filterMap_cons, loadedBy]
      cases c.paths.findSome? fun j =>
        libraryAt (c.files (pluginPath j c.name)) with
      | none => exact ih s
      | some l =>
          simp only [List.foldlM_cons]
          exact congrArg (plugIn s l >>= ·) (funext ih)

/-! ## One after the other -/

/-- The name a library registers a transport under, if it does. -/
def transportName (l : Library) : Option (List UInt8) :=
  match l.plugin with
  | .urpcNull => some ("null".toList.map chr)
  | .urpcSerial => some ("serial".toList.map chr)
  | .dummy | .tcp | .urpc => none

/-- The urpc plugin is among them. -/
def HasUrpc (ls : List Library) : Prop := ∃ u ∈ ls, u.plugin = .urpc

/-- No transport comes before the urpc plugin. -/
def UrpcFirst (ls : List Library) : Prop :=
  ∀ pre l post, ls = pre ++ l :: post → transportName l ≠ none → HasUrpc pre

/-- The last library with a transport of this name since the urpc plugin was
loaded for the last time. -/
def lastTransport (ls : List Library) (name : List UInt8) : Option Library :=
  (ls.reverse.takeWhile fun l => l.plugin ≠ .urpc).find? fun l =>
    transportName l = some name

/-- What the plugins loaded so far have left behind. -/
structure PluggedIn (ls : List Library) (s : PluginWorld) : Prop where
  linked : s.linked = true ↔ HasUrpc ls
  table : ∀ t, s.transports = some t → t = lastTransport ls
  made : s.transports.isSome = true ↔ HasUrpc ls

theorem hasUrpc_concat {ls : List Library} {l : Library} :
    HasUrpc (ls ++ [l]) ↔ HasUrpc ls ∨ l.plugin = .urpc := by
  simp [HasUrpc, or_and_right, exists_or]

theorem urpcFirst_concat {ls : List Library} {l : Library} :
    UrpcFirst (ls ++ [l]) ↔
      UrpcFirst ls ∧ (transportName l ≠ none → HasUrpc ls) := by
  constructor
  · intro h
    refine ⟨fun pre k post hls => ?_, h ls l [] rfl⟩
    exact h pre k (post ++ [l]) (by rw [hls, List.append_assoc]; rfl)
  · rintro ⟨hinit, hlast⟩ pre k post hls hk
    rcases List.eq_nil_or_concat' post with rfl | ⟨post, k', rfl⟩
    · obtain ⟨rfl, hkl⟩ := List.append_inj' hls rfl
      cases hkl
      exact hlast hk
    · refine hinit pre k post ?_ hk
      rw [← List.cons_append, ← List.append_assoc] at hls
      exact (List.append_inj' hls rfl).1

theorem lastTransport_concat (ls : List Library) (l : Library)
    (name : List UInt8) :
    lastTransport (ls ++ [l]) name =
      if l.plugin = .urpc then none
      else if transportName l = some name then some l
      else lastTransport ls name := by
  rw [lastTransport, List.reverse_concat]
  by_cases hurpc : l.plugin = .urpc
  · rw [List.takeWhile_cons_of_neg (by simp [hurpc]), if_pos hurpc]
    rfl
  · rw [List.takeWhile_cons_of_pos (by simp [hurpc]), if_neg hurpc,
      List.find?_cons]
    by_cases hname : transportName l = some name
    · simp [hname]
    · simp [hname, lastTransport]

section Plugging

variable {ls : List Library} {l : Library} {s : PluginWorld}

theorem plugIn_urpc (h : l.plugin = .urpc) :
    plugIn s l = .ok ⟨true, some fun _ => none⟩ := by
  rw [plugIn, auraPluginInit, h]
  simp [urpcPluginInit]

theorem plugIn_plain (hurpc : l.plugin ≠ .urpc)
    (hname : transportName l = none) : plugIn s l = .ok s := by
  obtain ⟨handle, plugin⟩ := l
  cases plugin with
  | dummy | tcp => simp [plugIn, auraPluginInit]
  | urpc => exact absurd rfl hurpc
  | urpcNull | urpcSerial => cases hname

theorem plugIn_transport {name : List UInt8}
    (hname : transportName l = some name) :
    l.plugin ≠ .urpc ∧ plugIn s l = urpcRegisterTransport name l s := by
  obtain ⟨handle, plugin⟩ := l
  cases plugin with
  | dummy | tcp | urpc => cases hname
  | urpcNull | urpcSerial =>
      cases hname
      simp [plugIn, auraPluginInit]

/-- A plugin that is loaded too early ends the process; any other leaves what
it should behind. -/
theorem PluggedIn.plugIn (h : PluggedIn ls s) :
    ((transportName l ≠ none → HasUrpc ls) →
      ∃ s', plugIn s l = .ok s' ∧ PluggedIn (ls ++ [l]) s') ∧
    (¬ (transportName l ≠ none → HasUrpc ls) →
      plugIn s l = .error .symbolLookup) := by
  have hlast := lastTransport_concat ls l
  cases hname : transportName l with
  | none =>
      refine ⟨fun _ => ?_, fun hnot => absurd (fun hne => absurd rfl hne) hnot⟩
      by_cases hurpc : l.plugin = .urpc
      · refine ⟨_, plugIn_urpc hurpc, ?_, fun t ht => ?_, ?_⟩
        · exact iff_of_true rfl (hasUrpc_concat.mpr (.inr hurpc))
        · cases ht
          funext name
          rw [hlast, if_pos hurpc]
        · exact iff_of_true rfl (hasUrpc_concat.mpr (.inr hurpc))
      · have hsame : HasUrpc (ls ++ [l]) ↔ HasUrpc ls :=
          hasUrpc_concat.trans (or_iff_left hurpc)
        refine ⟨s, plugIn_plain hurpc hname, h.linked.trans hsame.symm,
          fun t ht => ?_, h.made.trans hsame.symm⟩
        rw [h.table t ht]
        funext name
        rw [hlast, if_neg hurpc, hname, if_neg nofun]
  | some name =>
      obtain ⟨hurpc, hregister⟩ := plugIn_transport (s := s) hname
      rw [hregister, urpcRegisterTransport]
      constructor
      · intro hfirst
        have hhas := hfirst nofun
        obtain ⟨t, ht⟩ := Option.isSome_iff_exists.mp (h.made.mpr hhas)
        have hboth : HasUrpc (ls ++ [l]) := hasUrpc_concat.mpr (.inl hhas)
        rw [if_pos (h.linked.mpr hhas), ht]
        refine ⟨_, rfl, iff_of_true (h.linked.mpr hhas) hboth, fun t' ht' => ?_,
          iff_of_true rfl hboth⟩
        cases ht'
        funext n
        rw [hlast, if_neg hurpc, hname, ← h.table t ht]
        by_cases hn : n = name
        · rw [if_pos hn, if_pos (congrArg some hn.symm)]
        · rw [if_neg hn, if_neg fun heq => hn (Option.some.inj heq).symm]
      · intro hnot
        have hnone : ¬ HasUrpc ls := fun hhas => hnot fun _ => hhas
        exact if_neg fun hlinked => hnone (h.linked.mp hlinked)

end Plugging

theorem plugIn_run (ls : List Library) :
    (UrpcFirst ls → ∃ s, ls.foldlM plugIn ⟨false, none⟩ = .ok s ∧
      PluggedIn ls s) ∧
    (¬ UrpcFirst ls →
      ls.foldlM plugIn ⟨false, none⟩ = .error .symbolLookup) := by
  induction ls using List.reverseRecOn with
  | nil =>
      refine ⟨fun _ => ⟨_, rfl, by simp [HasUrpc], nofun, by simp [HasUrpc]⟩,
        fun hnot => absurd (fun pre l post hls => ?_) hnot⟩
      simp at hls
  | append_singleton ls l ih =>
      rw [List.foldlM_append, urpcFirst_concat]
      constructor
      · rintro ⟨hfirst, hlast⟩
        obtain ⟨s, hs, hplugged⟩ := ih.1 hfirst
        obtain ⟨s', hs', hplugged'⟩ := (hplugged.plugIn (l := l)).1 hlast
        refine ⟨s', ?_, hplugged'⟩
        rw [hs, ok_bind, List.foldlM_cons, hs']
        rfl
      · intro hnot
        by_cases hfirst : UrpcFirst ls
        · obtain ⟨s, hs, hplugged⟩ := ih.1 hfirst
          have hearly := (hplugged.plugIn (l := l)).2
            fun hlast => hnot ⟨hfirst, hlast⟩
          rw [hs, ok_bind, List.foldlM_cons, hearly]
          rfl
        · rw [ih.2 hfirst]
          rfl

/-- Whatever is loaded, in whatever order, and whatever the files are at the
time: unless a transport comes before the urpc plugin, which ends the process,
everything is loaded, and a script that asks for a transport gets the one
loaded last since the urpc plugin was. Without the urpc plugin the question is
an error. -/
theorem plugins_loaded (cs : List LoadCall) :
    (UrpcFirst (loadedLibraries cs) → ∃ s, loadRun cs = .ok s ∧
      (HasUrpc (loadedLibraries cs) → ∀ name, urpcTransport name s
        = .ok (lastTransport (loadedLibraries cs) name)) ∧
      (¬ HasUrpc (loadedLibraries cs) → ∀ name, urpcTransport name s
        = .error .indexNil)) ∧
    (¬ UrpcFirst (loadedLibraries cs) →
      loadRun cs = .error .symbolLookup) := by
  obtain ⟨hfirst, hearly⟩ := plugIn_run (loadedLibraries cs)
  rw [loadRun, loadRun_eq]
  refine ⟨fun h => ?_, hearly⟩
  obtain ⟨s, hs, hplugged⟩ := hfirst h
  refine ⟨s, hs, fun hhas name => ?_, fun hnone name => ?_⟩
  · obtain ⟨t, ht⟩ := Option.isSome_iff_exists.mp (hplugged.made.mpr hhas)
    rw [urpcTransport, ht, hplugged.table t ht]
    rfl
  · cases ht : s.transports with
    | none => rw [urpcTransport, ht]
    | some t =>
        exact absurd (hplugged.made.mp (by rw [ht]; rfl)) hnone

end Aura.Proofs
