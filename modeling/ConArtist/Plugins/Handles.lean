import ConArtist.Plugins.Refinement

/-!
# The handles of the plugins

A handle stands for one call of `dlopen`: two calls never give the same. `load_plugin` closes
the handle of a plugin that it reloads before it knows whether the library can be used again.
When it cannot, the entry stays with a handle that is closed, and what removes the entry later
closes it a second time. Without such a reload every entry has a handle of its own, which is
open, and no handle is closed twice.
-/

namespace ConArtist

namespace Plugins

open KeyedTable Machine

/-- The handle that a call gets from `dlopen`. A full table is not tried. -/
def Registry.opens (r : Registry) : Call → Option ℕ
  | .load dlopen filename =>
      if r.pluginCapacity ≤ r.plugins.length then none
      else (dlopen (fullpath r.folder filename)).map Library.handle
  | .unload _ => none
  | .find _ => none

/-- A registry with the handles that were ever opened. -/
structure Loader where
  registry : Registry
  opened : List ℕ

namespace Loader

/-- The loader gives no handle twice. -/
def step (s : Loader) (c : Call) : Option Loader :=
  match s.registry.opens c with
  | some handle =>
      if handle ∈ s.opened then none
      else some ⟨(s.registry.call c).2, s.opened ++ [handle]⟩
  | none => some ⟨(s.registry.call c).2, s.opened⟩

def EntriesOpen (s : Loader) : Prop :=
  ∀ p ∈ s.registry.plugins, p.dlhandle ∈ s.opened ∧ p.dlhandle ∉ s.registry.closed

/-- A load that returns false leaves the table as it was, and the handles open. -/
def FailsCleanly (s : Loader) (c : Call) : Prop :=
  ∀ t, s.step c = some t → (s.registry.call c).1 = .loaded false →
    t.registry.plugins = s.registry.plugins ∧ t.EntriesOpen

/-- No handle was closed twice, also when the registry is destroyed now. -/
def ClosedOnce (s : Loader) : Prop := s.registry.destroyRegistry.Nodup

/-- A plugin that is loaded again, into a table that is not full, opens and exports its
functions. -/
def ReloadsOpen (s : Loader) : Call → Prop
  | .load dlopen filename => s.registry.plugins.length < s.registry.pluginCapacity →
      s.registry.indexOf filename ≠ none → exported s.registry.folder dlopen filename ≠ none
  | _ => True

instance (s : Loader) : ∀ c, Decidable (s.ReloadsOpen c)
  | .load dlopen filename => inferInstanceAs (Decidable (s.registry.plugins.length <
      s.registry.pluginCapacity → s.registry.indexOf filename ≠ none →
        exported s.registry.folder dlopen filename ≠ none))
  | .unload _ => isTrue trivial
  | .find _ => isTrue trivial

/-- Every entry has a handle of its own that was opened and is not closed. -/
structure Owned (s : Loader) : Prop where
  once : s.ClosedOnce
  opened : ∀ handle ∈ s.registry.destroyRegistry, handle ∈ s.opened

end Loader

section Registry

variable {r : Registry} {dlopen : Dlopen} {filename : Name}

theorem loadPlugin_of_full (hfull : r.pluginCapacity ≤ r.plugins.length) :
    r.loadPlugin dlopen filename = (false, r) := by
  rw [Registry.loadPlugin, if_pos hfull]

theorem opens_of_full (hfull : r.pluginCapacity ≤ r.plugins.length) :
    r.opens (.load dlopen filename) = none := by
  rw [Registry.opens, if_pos hfull]

theorem opens_of_room (hroom : r.plugins.length < r.pluginCapacity) :
    r.opens (.load dlopen filename) =
      (dlopen (fullpath r.folder filename)).map Library.handle := by
  rw [Registry.opens, if_neg (not_le.mpr hroom)]

/-- A library that is of no use is closed, after the one that was there before. -/
theorem loadPlugin_useless (hroom : r.plugins.length < r.pluginCapacity)
    (hexported : exported r.folder dlopen filename = none) :
    r.loadPlugin dlopen filename = (false, { r.closeEntry (r.indexOf filename) with
      closed := (r.closeEntry (r.indexOf filename)).closed ++
        (r.opens (.load dlopen filename)).toList }) := by
  have hpath : fullpath (r.closeEntry (r.indexOf filename)).folder filename =
      fullpath r.folder filename := by rw [folder_closeEntry]
  rw [Registry.loadPlugin, if_neg (not_le.mpr hroom), opens_of_room hroom]
  dsimp only
  rw [hpath]
  cases hopen : dlopen (fullpath r.folder filename) with
  | none => rw [Option.map_none, Option.toList_none, List.append_nil]
  | some library =>
      obtain ⟨handle, initializeFn, writeToStream, buildUiElement⟩ := library
      rw [exported, hopen, Option.bind_some] at hexported
      cases writeToStream with
      | none => rfl
      | some writeToStream =>
          cases buildUiElement with
          | none => rfl
          | some buildUiElement => cases hexported

/-- A library with its functions is stored under the handle that was opened. -/
theorem loadPlugin_useful {functions : Functions} (hroom : r.plugins.length < r.pluginCapacity)
    (hexported : exported r.folder dlopen filename = some functions) :
    ∃ handle, r.opens (.load dlopen filename) = some handle ∧ r.loadPlugin dlopen filename =
      (true, (r.closeEntry (r.indexOf filename)).store (r.indexOf filename) filename functions
        handle) := by
  obtain ⟨⟨handle, initializeFn, writeToStream, buildUiElement⟩, hopen, hfunctions⟩ :=
    Option.bind_eq_some_iff.mp hexported
  refine ⟨handle, by rw [opens_of_room hroom, hopen, Option.map_some], ?_⟩
  rw [Registry.loadPlugin, if_neg (not_le.mpr hroom)]
  dsimp only
  rw [folder_closeEntry, hopen]
  cases writeToStream with
  | none => cases hfunctions
  | some writeToStream =>
      cases buildUiElement with
      | none => cases hfunctions
      | some buildUiElement =>
          cases hfunctions
          rfl

theorem closeEntry_none (r : Registry) : r.closeEntry none = r := rfl

theorem closeEntry_some {i : ℕ} {p : Plugin} (hp : r.plugins[i]? = some p) :
    r.closeEntry (some i) = r.dlclose p.dlhandle := by
  rw [Registry.closeEntry, Option.bind_some, hp]

theorem perm_destroyRegistry_reload {i : ℕ} {p : Plugin} (hp : r.plugins[i]? = some p)
    (functions : Functions) (handle : ℕ) :
    ((r.dlclose p.dlhandle).store (some i) filename functions handle).destroyRegistry.Perm
      (r.destroyRegistry ++ [handle]) := by
  obtain ⟨hlt, rfl⟩ := List.getElem?_eq_some_iff.mp hp
  have hbefore : (r.plugins[i].dlhandle :: (r.plugins.eraseIdx i).map Plugin.dlhandle).Perm
      (r.plugins.map Plugin.dlhandle) := (List.getElem_cons_eraseIdx_perm hlt).map _
  have hafter := (List.set_perm_cons_eraseIdx hlt
    ({ functions with name := r.plugins[i].name, dlhandle := handle } : Plugin)).map Plugin.dlhandle
  have hmodify : r.plugins.modify i (fun plugin => { functions with
      name := plugin.name
      dlhandle := handle }) =
        r.plugins.set i { functions with name := r.plugins[i].name, dlhandle := handle } := by
    rw [List.modify_eq_set_getElem?, hp]
    rfl
  rw [Registry.destroyRegistry, Registry.destroyRegistry, Registry.store, Registry.dlclose]
  dsimp only
  rw [hmodify]
  calc (r.closed ++ [r.plugins[i].dlhandle] ++ (r.plugins.set i _).map Plugin.dlhandle).Perm
        (r.closed ++ [r.plugins[i].dlhandle] ++
          handle :: (r.plugins.eraseIdx i).map Plugin.dlhandle) := hafter.append_left _
    _ |>.Perm (r.closed ++ (handle :: r.plugins.map Plugin.dlhandle)) := by
        rw [List.append_assoc, List.singleton_append]
        exact ((List.Perm.swap _ _ _).trans (hbefore.cons _)).append_left _
    _ |>.Perm (r.closed ++ r.plugins.map Plugin.dlhandle ++ [handle]) := by
        rw [List.append_assoc]
        exact (List.perm_append_singleton _ _).symm.append_left _

theorem perm_destroyRegistry_unload {i : ℕ} {p : Plugin} (hp : r.plugins[i]? = some p) :
    ({ r.dlclose p.dlhandle with plugins := swapRemove r.plugins i } :
      Registry).destroyRegistry.Perm r.destroyRegistry := by
  rw [Registry.destroyRegistry, Registry.destroyRegistry, Registry.dlclose]
  dsimp only
  rw [List.append_assoc, List.singleton_append]
  exact ((perm_swapRemove hp).map Plugin.dlhandle).append_left _

/-- A load that is not a failing reload: the handles from before and the one that it opened. -/
theorem perm_destroyRegistry_load
    (hC : r.plugins.length < r.pluginCapacity → r.indexOf filename ≠ none →
      exported r.folder dlopen filename ≠ none) :
    (r.loadPlugin dlopen filename).2.destroyRegistry.Perm
      (r.destroyRegistry ++ (r.opens (.load dlopen filename)).toList) := by
  rcases Nat.lt_or_ge r.plugins.length r.pluginCapacity with hroom | hfull
  · cases hexported : exported r.folder dlopen filename with
    | none =>
        -- nothing was there under the name
        have hindex : r.indexOf filename = none := by
          by_contra hne
          exact hC hroom hne hexported
        rw [loadPlugin_useless hroom hexported, hindex, closeEntry_none,
          Registry.destroyRegistry, Registry.destroyRegistry, List.append_assoc,
          List.append_assoc]
        exact List.perm_append_comm.append_left _
    | some functions =>
        obtain ⟨handle, hopens, hload⟩ := loadPlugin_useful hroom hexported
        rw [hload, hopens]
        dsimp only [Option.toList_some]
        cases hindex : r.indexOf filename with
        | none =>
            rw [closeEntry_none, Registry.store, Registry.destroyRegistry,
              Registry.destroyRegistry, List.map_append, List.append_assoc]
            rfl
        | some i =>
            obtain ⟨p, hp, -, -⟩ := getElem?_of_indexOf hindex
            rw [closeEntry_some hp]
            exact perm_destroyRegistry_reload hp functions handle
  · rw [loadPlugin_of_full hfull, opens_of_full hfull, Option.toList_none, List.append_nil]

end Registry

namespace Loader

variable {s t : Loader} {c : Call}

/-- Without a reload that fails, the handles after a call, closed or in the table, are those
from before and the one that it opened. -/
theorem perm_destroyRegistry (hC : s.ReloadsOpen c) :
    (s.registry.call c).2.destroyRegistry.Perm
      (s.registry.destroyRegistry ++ (s.registry.opens c).toList) := by
  obtain ⟨r, opened⟩ := s
  cases c with
  | load dlopen filename => exact perm_destroyRegistry_load hC
  | unload name =>
      dsimp only [Registry.call, Registry.opens, Option.toList_none]
      rw [List.append_nil, Registry.unloadPlugin]
      cases hindex : r.indexOf name with
      | none => rfl
      | some i =>
          obtain ⟨p, hp, -, -⟩ := getElem?_of_indexOf hindex
          dsimp only
          rw [closeEntry_some hp]
          exact perm_destroyRegistry_unload hp
  | find name => exact (List.append_nil _).symm ▸ .rfl

/-- What a step leaves: the call's registry, and a handle that was not there before. -/
theorem step_eq_some (h : s.step c = some t) :
    t = ⟨(s.registry.call c).2, s.opened ++ (s.registry.opens c).toList⟩ ∧
      ∀ handle ∈ s.registry.opens c, handle ∉ s.opened := by
  rw [step] at h
  cases hopens : s.registry.opens c with
  | none =>
      rw [hopens] at h
      cases h
      exact ⟨by rw [Option.toList_none, List.append_nil], fun handle hmem => by cases hmem⟩
  | some handle =>
      rw [hopens] at h
      dsimp only at h
      split at h
      case isTrue => cases h
      case isFalse hnew =>
        cases h
        refine ⟨rfl, fun other hmem => ?_⟩
        obtain rfl := Option.mem_some_iff.mp hmem
        exact hnew

theorem Owned.entriesOpen (h : s.Owned) : s.EntriesOpen := by
  intro p hp
  have hmem : p.dlhandle ∈ s.registry.plugins.map Plugin.dlhandle := List.mem_map_of_mem hp
  refine ⟨h.opened _ (List.mem_append_right _ hmem), fun hclosed => ?_⟩
  exact (List.nodup_append.mp h.once).2.2 _ hclosed _ hmem rfl

theorem Owned.step (h : s.Owned) (hC : s.ReloadsOpen c) (ht : s.step c = some t) : t.Owned := by
  obtain ⟨rfl, hnew⟩ := step_eq_some ht
  have hperm := perm_destroyRegistry hC
  constructor
  · refine hperm.nodup_iff.mpr (List.nodup_append.mpr ⟨h.once, ?_, ?_⟩)
    · cases s.registry.opens c <;> simp
    · rintro handle hold _ hopened rfl
      exact hnew handle (Option.mem_toList.mp hopened) (h.opened handle hold)
  · intro handle hmem
    rcases List.mem_append.mp (hperm.mem_iff.mp hmem) with hold | hopened
    · exact List.mem_append_left _ (h.opened handle hold)
    · exact List.mem_append_right _ hopened

theorem failsCleanly_iff_of_step (ht : s.step c = some t) :
    s.FailsCleanly c ↔ ((s.registry.call c).1 = .loaded false →
      t.registry.plugins = s.registry.plugins ∧ t.EntriesOpen) := by
  constructor
  · exact fun hall => hall t ht
  · intro hthis u hu
    obtain rfl : t = u := Option.some.inj (ht.symm.trans hu)
    exact hthis

theorem EntriesOpen.extend {registry : Registry} {opened just : List ℕ}
    (h : EntriesOpen ⟨registry, opened⟩) (hnew : ∀ handle ∈ just, handle ∉ opened) :
    EntriesOpen ⟨{ registry with closed := registry.closed ++ just }, opened ++ just⟩ := by
  intro p hp
  obtain ⟨hopened, hclosed⟩ := h p hp
  refine ⟨List.mem_append_left _ hopened, fun hmem => ?_⟩
  rcases List.mem_append.mp hmem with hold | hjust
  · exact hclosed hold
  · exact hnew _ hjust hopened

/-- A load that fails is clean exactly when it was not a reload. -/
theorem EntriesOpen.failsCleanly_iff (h : s.EntriesOpen) (ht : s.step c = some t) :
    s.FailsCleanly c ↔ s.ReloadsOpen c := by
  rw [failsCleanly_iff_of_step ht]
  obtain ⟨rfl, hnew⟩ := step_eq_some ht
  obtain ⟨r, opened⟩ := s
  cases c with
  | load dlopen filename =>
      dsimp only [Registry.call, EntriesOpen, ReloadsOpen] at *
      rcases Nat.lt_or_ge r.plugins.length r.pluginCapacity with hroom | hfull
      · cases hexported : exported r.folder dlopen filename with
        | none =>
            rw [loadPlugin_useless hroom hexported]
            dsimp only
            cases hindex : r.indexOf filename with
            | none =>
                rw [closeEntry_none]
                refine iff_of_true (fun _ => ⟨rfl, ?_⟩) fun _ hne => absurd rfl hne
                exact EntriesOpen.extend h fun handle hjust =>
                  hnew handle (Option.mem_toList.mp hjust)
            | some i =>
                -- the entry is still there, and its handle was closed
                obtain ⟨p, hp, -, -⟩ := getElem?_of_indexOf hindex
                rw [closeEntry_some hp]
                refine iff_of_false (fun hclean => ?_) fun hC =>
                  hC hroom (Option.some_ne_none i) rfl
                refine ((hclean rfl).2 p (List.mem_of_getElem? hp)).2 ?_
                exact List.mem_append_left _ (List.mem_append_right _ List.mem_cons_self)
        | some functions =>
            obtain ⟨handle, -, hload⟩ := loadPlugin_useful hroom hexported
            rw [hload]
            exact iff_of_true (fun hfalse => by cases hfalse) fun _ _ => Option.some_ne_none _
      · rw [loadPlugin_of_full hfull, opens_of_full hfull]
        refine iff_of_true (fun _ => ⟨rfl, fun p hp => ?_⟩) fun hroom =>
          absurd hroom (not_lt.mpr hfull)
        rw [Option.toList_none, List.append_nil]
        exact h p hp
  | unload name => exact iff_of_true (fun hfalse => by cases hfalse) trivial
  | find name => exact iff_of_true (fun hfalse => by cases hfalse) trivial

theorem owned_empty (capacity : ℕ) (folder : List UInt8) :
    Owned ⟨⟨[], capacity, folder, []⟩, []⟩ where
  once := List.nodup_nil
  opened := by simp [Registry.destroyRegistry]

end Loader

/-- A load that fails leaves the table and the open handles as they were if and only if it is
not a reload, whatever is in a table with open handles. And in every run of calls all failing
loads are clean and no handle is closed twice, if and only if every plugin that is loaded again
into a table with room opens and exports its functions. -/
theorem failedLoad_clean_iff (s : Loader) :
    (s.EntriesOpen → ∀ (t : Loader) (c : Call), s.step c = some t →
      (s.FailsCleanly c ↔ s.ReloadsOpen c)) ∧
    (s.Owned → ∀ calls : List Call,
      (Along Loader.step Loader.FailsCleanly s calls ∧
        Throughout Loader.step Loader.ClosedOnce s calls ↔
          Along Loader.step Loader.ReloadsOpen s calls)) := by
  refine ⟨fun hs t c ht => hs.failsCleanly_iff ht, fun hs calls => ?_⟩
  have hclean : Along Loader.step Loader.FailsCleanly s calls ↔
      Along Loader.step Loader.ReloadsOpen s calls :=
    along_iff_along (I := Loader.Owned) (fun _ _ _ _ hu hC ht => hu.step hC ht)
      (fun _ _ _ _ hu ht => hu.entriesOpen.failsCleanly_iff ht) hs
  rw [hclean, and_iff_left_iff_imp]
  exact throughout_of_along (I := Loader.Owned) (fun _ hu => hu.once)
    (fun _ _ _ _ hu hC ht => hu.step hC ht) hs

/-- The entry of a library with the two functions. -/
def decoderPlugin : Plugin := { toFunctions := ⟨none, 2, 3⟩, name := [97], dlhandle := 1 }

/-- A second plugin that does not open, a reload, and a third call that removes the plugin. -/
theorem failedLoad_clean_reloaded :
    Loader.FailsCleanly ⟨⟨[decoderPlugin], 2, [], []⟩, [1]⟩ (.load (fun _ => none) [98]) ∧
    Along Loader.step Loader.FailsCleanly ⟨⟨[], 2, [], []⟩, []⟩
        [.load (fun _ => some decoderLibrary) [97], .load (fun _ => none) [98],
          .load (fun _ => some ⟨4, none, some 5, some 6⟩) [97], .unload [97]] ∧
      Throughout Loader.step Loader.ClosedOnce ⟨⟨[], 2, [], []⟩, []⟩
        [.load (fun _ => some decoderLibrary) [97], .load (fun _ => none) [98],
          .load (fun _ => some ⟨4, none, some 5, some 6⟩) [97], .unload [97]] := by
  refine ⟨((failedLoad_clean_iff _).1 ?_ _ _ rfl).mpr (by decide),
    ((failedLoad_clean_iff _).2 (Loader.owned_empty 2 []) _).mpr (by decide)⟩
  simp [Loader.EntriesOpen, decoderPlugin]

/-- A plugin whose new library does not open is in the table with a closed handle, and that
handle is closed again when the plugin is removed. -/
theorem failedReload_closedTwice :
    Loader.EntriesOpen ⟨⟨[decoderPlugin], 2, [], []⟩, [1]⟩ ∧
    (Registry.mk [decoderPlugin] 2 [] []).loadPlugin (fun _ => none) [97] =
      (false, ⟨[decoderPlugin], 2, [], [1]⟩) ∧
    ¬ Loader.FailsCleanly ⟨⟨[decoderPlugin], 2, [], []⟩, [1]⟩ (.load (fun _ => none) [97]) ∧
    (run Loader.step ⟨⟨[], 2, [], []⟩, []⟩
      [.load (fun _ => some decoderLibrary) [97], .load (fun _ => none) [97],
        .unload [97]]).map (fun t => t.registry.closed) = some [1, 1] := by
  refine ⟨by simp [Loader.EntriesOpen, decoderPlugin], rfl, fun h => ?_, by decide⟩
  exact ((h _ rfl rfl).2 decoderPlugin List.mem_cons_self).2 List.mem_cons_self

end Plugins

end ConArtist
