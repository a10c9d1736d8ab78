import ConArtist.Plugins.Handles

/-!
# The watched folder

A registry loads the libraries that are in its folder when it is created, and after that each one
that an event names. So its table should be an image of the folder: under a name, the functions
that the library had when it was last tried and could be used. It is as long as there is room for
one library more than there are, as a table that is full takes no library again.

The handles of a registry from its creation up to its end are those that were opened, once each,
exactly when no library that was loaded fails to load again.
-/

namespace ConArtist

namespace Plugins

open KeyedTable Machine Function

/-- What `on_fs_event` is called with, and the files at that time. -/
structure FsEvent where
  dlopen : Dlopen
  filename : Name
  change : Bool

def watch (dlopen : Dlopen) (pathToFolder : List UInt8) (maxPlugins : ℕ) (entries : List Name)
    (events : List FsEvent) : Registry :=
  events.foldl (fun r e => r.onFsEvent e.dlopen e.filename e.change)
    (Registry.createRegistry dlopen pathToFolder maxPlugins entries)

/-- A library that is tried, by its name, and the files at that time. -/
abbrev Load := Dlopen × Name

/-- The libraries of the folder, and those that events name. -/
def loads (dlopen : Dlopen) (entries : List Name) (events : List FsEvent) : List Load :=
  (entries.filter Registry.hasSoExtension).map (dlopen, ·) ++
    (events.filter fun e => Registry.hasSoExtension e.filename && e.change).map fun e =>
      (e.dlopen, e.filename)

/-- The functions that a load finds under a name. -/
def Load.functionsOf (folder : List UInt8) (name : Name) (l : Load) : Option Functions :=
  if l.2 = name then exported folder l.1 name else none

/-- The functions that a name had when it was last tried and could be used. -/
def lastExported (folder : List UInt8) (ls : List Load) (name : Name) : Option Functions :=
  (ls.filterMap (Load.functionsOf folder name)).getLast?

section Loads

variable {folder : List UInt8} {ls : List Load} {l : Load} {name : Name}

theorem lastExported_append_singleton (ls : List Load) (l : Load) (name : Name) :
    lastExported folder (ls ++ [l]) name =
      (l.functionsOf folder name).or (lastExported folder ls name) := by
  rw [lastExported, List.filterMap_append]
  cases hl : l.functionsOf folder name with
  | none => rw [List.filterMap_cons_none hl, List.filterMap_nil, List.append_nil, Option.none_or,
      lastExported]
  | some functions => rw [List.filterMap_cons_some hl, List.filterMap_nil, List.getLast?_concat,
      Option.some_or]

theorem lastExported_of_none (h : exported folder l.1 l.2 = none) :
    lastExported folder (ls ++ [l]) = lastExported folder ls := by
  funext name
  rw [lastExported_append_singleton]
  have hnone : l.functionsOf folder name = none := by
    rw [Load.functionsOf]
    split
    case isTrue heq => rw [← heq, h]
    case isFalse => rfl
  rw [hnone, Option.none_or]

theorem lastExported_of_some {functions : Functions}
    (h : exported folder l.1 l.2 = some functions) :
    lastExported folder (ls ++ [l]) =
      update (lastExported folder ls) l.2 (some functions) := by
  funext name
  rw [lastExported_append_singleton, Load.functionsOf, update_apply]
  by_cases heq : l.2 = name
  · rw [if_pos heq, if_pos heq.symm, ← heq, h, Option.some_or]
  · rw [if_neg heq, if_neg fun hname => heq hname.symm, Option.none_or]

theorem exists_of_lastExported {functions : Functions}
    (h : lastExported folder ls name = some functions) :
    ∃ l ∈ ls, l.2 = name ∧ exported folder l.1 name = some functions := by
  obtain ⟨l, hl, hfunctions⟩ := List.mem_filterMap.mp (List.mem_of_getLast? h)
  rw [Load.functionsOf] at hfunctions
  split at hfunctions
  case isTrue heq => exact ⟨l, hl, heq, hfunctions⟩
  case isFalse => cases hfunctions

/-- A table that takes the libraries one after the other. -/
def loadAll (r : Registry) (ls : List Load) : Registry :=
  ls.foldl (fun r l => (r.loadPlugin l.1 l.2).2) r

theorem loadAll_append (r : Registry) (ls ls' : List Load) :
    loadAll r (ls ++ ls') = loadAll (loadAll r ls) ls' :=
  List.foldl_append

theorem watch_eq_loadAll (dlopen : Dlopen) (pathToFolder : List UInt8) (maxPlugins : ℕ)
    (entries : List Name) (events : List FsEvent) :
    watch dlopen pathToFolder maxPlugins entries events =
      loadAll ⟨[], maxPlugins, pathToFolder.take 255, []⟩ (loads dlopen entries events) := by
  rw [loads, loadAll_append, watch]
  have hcreate : Registry.createRegistry dlopen pathToFolder maxPlugins entries =
      loadAll ⟨[], maxPlugins, pathToFolder.take 255, []⟩
        ((entries.filter Registry.hasSoExtension).map (dlopen, ·)) := by
    rw [loadAll, List.foldl_map]
    rfl
  rw [hcreate]
  generalize loadAll ⟨[], maxPlugins, pathToFolder.take 255, []⟩ _ = r
  induction events generalizing r with
  | nil => rfl
  | cons e events ih =>
      rw [List.foldl_cons, ih, Registry.onFsEvent]
      split
      case isTrue h =>
          rw [List.filter_cons_of_pos (by exact h)]
          rfl
      case isFalse h => rw [List.filter_cons_of_neg (by exact h)]

end Loads

section Table

variable {r : Registry} {ls : List Load} {l : Load} {name : Name}

theorem pluginCapacity_closeEntry (r : Registry) (p : Option ℕ) :
    (r.closeEntry p).pluginCapacity = r.pluginCapacity := by
  rw [Registry.closeEntry]
  split <;> rfl

theorem kept_store (r : Registry) (p : Option ℕ) (filename : Name) (functions : Functions)
    (handle : ℕ) : (r.store p filename functions handle).folder = r.folder ∧
      (r.store p filename functions handle).pluginCapacity = r.pluginCapacity := by
  cases p with
  | none => exact ⟨rfl, rfl⟩
  | some i => exact ⟨rfl, rfl⟩

theorem kept_loadPlugin (r : Registry) (dlopen : Dlopen) (name : Name) :
    (r.loadPlugin dlopen name).2.folder = r.folder ∧
      (r.loadPlugin dlopen name).2.pluginCapacity = r.pluginCapacity := by
  have hclose : (r.closeEntry (r.indexOf name)).folder = r.folder ∧
      (r.closeEntry (r.indexOf name)).pluginCapacity = r.pluginCapacity :=
    ⟨folder_closeEntry r _, pluginCapacity_closeEntry r _⟩
  rcases Nat.lt_or_ge r.plugins.length r.pluginCapacity with hroom | hfull
  · cases hexported : exported r.folder dlopen name with
    | none =>
        rw [loadPlugin_useless hroom hexported]
        exact hclose
    | some functions =>
        obtain ⟨handle, -, hload⟩ := loadPlugin_useful hroom hexported
        obtain ⟨hfolder, hcapacity⟩ :=
          kept_store (r.closeEntry (r.indexOf name)) (r.indexOf name) name functions handle
        rw [hload]
        exact ⟨hfolder.trans hclose.1, hcapacity.trans hclose.2⟩
  · rw [loadPlugin_of_full hfull]
    exact ⟨rfl, rfl⟩

theorem loadAll_of_full (hfull : r.pluginCapacity ≤ r.plugins.length) (ls : List Load) :
    loadAll r ls = r := by
  induction ls with
  | nil => rfl
  | cons l ls ih =>
      rw [loadAll, List.foldl_cons, loadPlugin_of_full hfull]
      exact ih

theorem loadAll_concat (r : Registry) (ls : List Load) (l : Load) :
    loadAll r (ls ++ [l]) = ((loadAll r ls).loadPlugin l.1 l.2).2 := by
  rw [loadAll_append]
  rfl

theorem kept_loadAll (r : Registry) (ls : List Load) :
    (loadAll r ls).folder = r.folder ∧ (loadAll r ls).pluginCapacity = r.pluginCapacity := by
  induction ls using List.reverseRecOn with
  | nil => exact ⟨rfl, rfl⟩
  | append_singleton ls l ih =>
      rw [loadAll_concat]
      obtain ⟨hfolder, hcapacity⟩ := kept_loadPlugin (loadAll r ls) l.1 l.2
      exact ⟨hfolder.trans ih.1, hcapacity.trans ih.2⟩

theorem Represents.load_last (h : Represents r (lastExported r.folder ls))
    (hname : l.2.length < 256) (hroom : exported r.folder l.1 l.2 ≠ none →
      r.plugins.length < r.pluginCapacity) :
    Represents (r.loadPlugin l.1 l.2).2 (lastExported r.folder (ls ++ [l])) := by
  cases hexported : exported r.folder l.1 l.2 with
  | none =>
      obtain ⟨r', hload, hplugins⟩ := loadPlugin_of_none hexported
      rw [hload, lastExported_of_none hexported]
      exact h.of_plugins hplugins
  | some functions =>
      have hlt : r.plugins.length < r.pluginCapacity :=
        hroom (hexported ▸ Option.some_ne_none functions)
      obtain ⟨r₁, handle, hplugins, hload⟩ := loadPlugin_of_some hlt hexported
      rw [hload, lastExported_of_some hexported]
      exact (h.of_plugins hplugins).store hname functions handle

/-- Every entry has the functions that a load of its name found. -/
def FromLoads (r : Registry) (ls : List Load) : Prop :=
  ∃ loaded, Represents r loaded ∧ ∀ name functions, loaded name = some functions →
    ∃ l ∈ ls, l.2 = name ∧ exported r.folder l.1 name = some functions

theorem FromLoads.load (h : FromLoads r ls) (hname : l.2.length < 256) :
    FromLoads (r.loadPlugin l.1 l.2).2 (ls ++ [l]) := by
  obtain ⟨loaded, hr, hloaded⟩ := h
  have hfolder := (kept_loadPlugin r l.1 l.2).1
  have hold : ∀ name functions, loaded name = some functions → ∃ l' ∈ ls ++ [l], l'.2 = name ∧
      exported (r.loadPlugin l.1 l.2).2.folder l'.1 name = some functions := by
    intro name functions hfunctions
    obtain ⟨l', hl', hboth⟩ := hloaded name functions hfunctions
    exact ⟨l', List.mem_append_left _ hl', hfolder.symm ▸ hboth⟩
  rcases Nat.lt_or_ge r.plugins.length r.pluginCapacity with hroom | hfull
  · cases hexported : exported r.folder l.1 l.2 with
    | none =>
        obtain ⟨r', hload, hplugins⟩ := loadPlugin_of_none hexported
        rw [hload] at hold ⊢
        exact ⟨loaded, hr.of_plugins hplugins, hold⟩
    | some functions =>
        obtain ⟨r₁, handle, hplugins, hload⟩ := loadPlugin_of_some hroom hexported
        have hstored := (hr.of_plugins hplugins).store hname functions handle
        refine ⟨update loaded l.2 (some functions), ?_, fun name functions' hfunctions => ?_⟩
        · rw [hload]
          exact hstored
        · rw [update_apply] at hfunctions
          split at hfunctions
          case isTrue heq =>
              cases hfunctions
              subst heq
              exact ⟨l, List.mem_append_right _ (List.mem_singleton_self l), rfl,
                hfolder.symm ▸ hexported⟩
          case isFalse => exact hold name functions' hfunctions
  · rw [loadPlugin_of_full hfull] at hold ⊢
    exact ⟨loaded, hr, hold⟩

theorem fromLoads_loadAll (capacity : ℕ) (folder : List UInt8) {ls : List Load}
    (hnames : ∀ l ∈ ls, l.2.length < 256) : FromLoads (loadAll ⟨[], capacity, folder, []⟩ ls) ls := by
  induction ls using List.reverseRecOn with
  | nil => exact ⟨_, represents_empty capacity folder, fun name functions h => by cases h⟩
  | append_singleton ls l ih =>
      rw [loadAll_concat]
      refine (ih fun l' hl' => hnames l' (List.mem_append_left _ hl')).load ?_
      exact hnames l (List.mem_append_right _ (List.mem_singleton_self l))

/-- Where there is room for one more than there are names, the table is what the loads found. -/
theorem represents_loadAll {capacity : ℕ} {folder : List UInt8} {ls : List Load}
    {names : List Name} (hnames : ∀ l ∈ ls, l.2.length < 256)
    (hexport : ∀ l ∈ ls, exported folder l.1 l.2 ≠ none → l.2 ∈ names)
    (hroom : names.length < capacity) :
    Represents (loadAll ⟨[], capacity, folder, []⟩ ls) (lastExported folder ls) := by
  induction ls using List.reverseRecOn with
  | nil => exact represents_empty capacity folder
  | append_singleton ls l ih =>
      have hr := ih (fun l' hl' => hnames l' (List.mem_append_left _ hl')) fun l' hl' =>
        hexport l' (List.mem_append_left _ hl')
      obtain ⟨hfolder, hcapacity⟩ := kept_loadAll ⟨[], capacity, folder, []⟩ ls
      generalize hr₁ : loadAll ⟨[], capacity, folder, []⟩ ls = r at hr hfolder hcapacity
      dsimp only at hfolder hcapacity
      subst hfolder
      -- the table has only names that were exported before
      have hsubset : {name | lastExported r.folder ls name ≠ none} ⊆ {name | name ∈ names} := by
        intro name hname
        obtain ⟨functions, hfunctions⟩ := Option.ne_none_iff_exists'.mp hname
        obtain ⟨l', hl', rfl, hexported⟩ := exists_of_lastExported hfunctions
        exact hexport l' (List.mem_append_left _ hl') (hexported ▸ Option.some_ne_none functions)
      have hcard : r.plugins.length ≤ names.length := by
        rw [← hr.ncard]
        refine (Set.ncard_le_ncard hsubset names.finite_toSet).trans ?_
        have htoFinset : {name | name ∈ names} = (names.toFinset : Set Name) :=
          Set.ext fun name => List.mem_toFinset.symm
        rw [htoFinset, Set.ncard_coe_finset]
        exact names.toFinset_card_le
      rw [loadAll_concat, hr₁]
      refine hr.load_last (hnames l (List.mem_append_right _ (List.mem_singleton_self l))) ?_
      intro _
      rw [hcapacity]
      exact Nat.lt_of_le_of_lt hcard hroom

end Table

/-- The table of a watched folder has, under a name, functions that a library of that name had when
it was tried. Where there is room for one library more than ever export their functions, these are
the functions it had when it was last tried and could be used. A table that is full stays as it
is. -/
theorem watch_mirrors (dlopen : Dlopen) (pathToFolder : List UInt8) (maxPlugins : ℕ)
    (entries : List Name) (events : List FsEvent)
    (hnames : ∀ l ∈ loads dlopen entries events, l.2.length < 256) :
    (∀ name p, (watch dlopen pathToFolder maxPlugins entries events).findPlugin name = some p →
      ∃ l ∈ loads dlopen entries events, l.2 = name ∧
        exported (pathToFolder.take 255) l.1 name = some p.toFunctions) ∧
    (∀ names : List Name, names.length < maxPlugins →
      (∀ l ∈ loads dlopen entries events,
        exported (pathToFolder.take 255) l.1 l.2 ≠ none → l.2 ∈ names) →
      ∀ name, ((watch dlopen pathToFolder maxPlugins entries events).findPlugin name).map
          Plugin.toFunctions =
        lastExported (pathToFolder.take 255) (loads dlopen entries events) name) ∧
    (maxPlugins ≤ (watch dlopen pathToFolder maxPlugins entries events).plugins.length →
      ∀ later, watch dlopen pathToFolder maxPlugins entries (events ++ later) =
        watch dlopen pathToFolder maxPlugins entries events) := by
  have hwatch := watch_eq_loadAll dlopen pathToFolder maxPlugins entries
  obtain ⟨hfolder, hcapacity⟩ := kept_loadAll ⟨[], maxPlugins, pathToFolder.take 255, []⟩
    (loads dlopen entries events)
  refine ⟨fun name p hp => ?_, fun names hroom hexport name => ?_, fun hfull later => ?_⟩
  · obtain ⟨loaded, hr, hloaded⟩ := fromLoads_loadAll maxPlugins (pathToFolder.take 255) hnames
    rw [hwatch] at hp
    have hfunctions : loaded name = some p.toFunctions := by
      rw [hr.functions, hp, Option.map_some]
    obtain ⟨l, hl, hname, hexported⟩ := hloaded name p.toFunctions hfunctions
    rw [hfolder] at hexported
    exact ⟨l, hl, hname, hexported⟩
  · rw [hwatch, ← (represents_loadAll hnames hexport hroom).functions]
  · rw [hwatch] at hfull
    have hsplit : loads dlopen entries (events ++ later) =
        loads dlopen entries events ++ loads dlopen [] later := by
      rw [loads, loads, loads, List.filter_append, List.map_append, List.append_assoc]
      rfl
    rw [hwatch, hwatch, hsplit, loadAll_append, loadAll_of_full (hcapacity.symm ▸ hfull)]

/-- A library of the folder changes, and then cannot be opened. -/
theorem watch_mirrors_changed :
    ((watch (fun _ => some decoderLibrary) [47] 2 [[97, 46, 100, 121, 108, 105, 98]]
      [⟨fun _ => some ⟨4, none, some 5, some 6⟩, [97, 46, 100, 121, 108, 105, 98], true⟩,
        ⟨fun _ => none, [97, 46, 100, 121, 108, 105, 98], true⟩]).findPlugin
          [97, 46, 100, 121, 108, 105, 98]).map Plugin.toFunctions = some ⟨none, 5, 6⟩ := by
  refine ((watch_mirrors _ [47] 2 _ _ ?_).2.1 [[97, 46, 100, 121, 108, 105, 98]] (by decide) ?_
    [97, 46, 100, 121, 108, 105, 98]).trans rfl
  · decide
  · intro l hl _
    simp [loads, Registry.hasSoExtension] at hl
    rcases hl with rfl | rfl | rfl <;> decide

namespace Loader

/-- The handles that are closed when the registry is destroyed are those that were opened, once
each. -/
structure ClosesOpened (s : Loader) : Prop where
  perm : s.registry.destroyRegistry.Perm s.opened
  once : s.opened.Nodup

variable {s t : Loader} {c : Call}

theorem nodup_opened_of_step (h : s.opened.Nodup) (ht : s.step c = some t) : t.opened.Nodup := by
  obtain ⟨rfl, hnew⟩ := step_eq_some ht
  refine List.nodup_append.mpr ⟨h, ?_, ?_⟩
  · cases s.registry.opens c <;> simp
  · rintro handle hold _ hopened rfl
    exact hnew handle (Option.mem_toList.mp hopened) hold

theorem ClosesOpened.step (h : s.ClosesOpened) (hC : s.ReloadsOpen c) (ht : s.step c = some t) :
    t.ClosesOpened := by
  refine ⟨?_, nodup_opened_of_step h.once ht⟩
  obtain ⟨rfl, -⟩ := step_eq_some ht
  exact (perm_destroyRegistry hC).trans (h.perm.append_right _)

theorem not_closedOnce_of_not_reloadsOpen (hC : ¬ s.ReloadsOpen c) (ht : s.step c = some t) :
    ¬ t.ClosedOnce := by
  obtain ⟨rfl, -⟩ := step_eq_some ht
  obtain ⟨r, opened⟩ := s
  cases c with
  | load dlopen filename =>
      dsimp only [ReloadsOpen] at hC
      simp only [Classical.not_imp, not_not] at hC
      obtain ⟨hroom, hindex, hexported⟩ := hC
      obtain ⟨i, hi⟩ := Option.ne_none_iff_exists'.mp hindex
      obtain ⟨p, hp, -, -⟩ := getElem?_of_indexOf hi
      have hclosed : p.dlhandle ∈ (r.closed ++ [p.dlhandle]) ++
          (r.opens (.load dlopen filename)).toList :=
        List.mem_append_left _ (List.mem_append_right _ List.mem_cons_self)
      have htable : p.dlhandle ∈ r.plugins.map Plugin.dlhandle :=
        List.mem_map_of_mem (List.mem_of_getElem? hp)
      intro hnodup
      dsimp only [ClosedOnce, Registry.call] at hnodup
      rw [loadPlugin_useless hroom hexported, hi, closeEntry_some hp] at hnodup
      exact (List.nodup_append.mp hnodup).2.2 _ hclosed _ htable rfl
  | unload name => exact fun _ => hC trivial
  | find name => exact fun _ => hC trivial

/-- From its creation on, whenever a registry is destroyed the handles that were opened are closed
once each, if and only if every library that is loaded again into a table with room can be used. -/
theorem closesOpened_iff (capacity : ℕ) (folder : List UInt8) (calls : List Call) :
    Throughout step ClosesOpened ⟨⟨[], capacity, folder, []⟩, []⟩ calls ↔
      Along step ReloadsOpen ⟨⟨[], capacity, folder, []⟩, []⟩ calls := by
  refine throughout_iff_along (I := ClosesOpened) (fun _ h => h) ?_ ?_ ⟨.rfl, List.nodup_nil⟩
  · exact fun s t c _ h hC ht => h.step hC ht
  · intro s t c _ _ hC ht h
    exact not_closedOnce_of_not_reloadsOpen hC ht (h.perm.nodup_iff.mpr h.once)

end Loader

end Plugins

end ConArtist
