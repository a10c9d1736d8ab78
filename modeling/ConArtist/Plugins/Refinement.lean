import Mathlib.Logic.Function.Basic
import ConArtist.Foundation.Run
import ConArtist.Plugins.Registry

/-!
# The registry as a map

The table stands for a map from names to the functions of the plugin that was loaded last
under the name. `load_plugin` looks whether the table is full before it looks whether the
plugin is there already, so the registry behaves like the map exactly as long as no plugin
that is loaded again finds the table full.
-/

namespace ConArtist

namespace Plugins

open KeyedTable Machine Function

/-- The functions of the plugins that are loaded. -/
abbrev Loaded := Name → Option Functions

/-- The functions that `dlopen` and `dlsym` find for a name. -/
def exported (folder : List UInt8) (dlopen : Dlopen) (filename : Name) : Option Functions :=
  (dlopen (fullpath folder filename)).bind Library.functions

open Classical in
/-- What a call should do to a map for which there is room for so many names. -/
noncomputable def Loaded.call (capacity : ℕ) (folder : List UInt8) (loaded : Loaded) :
    Call → Response × Loaded
  | .load dlopen filename =>
      match exported folder dlopen filename with
      | some functions =>
          if loaded filename ≠ none ∨ {name | loaded name ≠ none}.ncard < capacity then
            (.loaded true, update loaded filename (some functions))
          else (.loaded false, loaded)
      | none => (.loaded false, loaded)
  | .unload name => (.unloaded (loaded name).isSome, update loaded name none)
  | .find name => (.found (loaded name), loaded)

/-- The names in the table are distinct, and it has the functions of the map. -/
structure Represents (r : Registry) (loaded : Loaded) : Prop where
  keyed : Keyed Plugin.name r.plugins
  functions : ∀ name, loaded name = (r.findPlugin name).map Plugin.toFunctions

/-- The registry and the map take the same calls. -/
noncomputable def step (s : Registry × Loaded) (c : Call) : Option (Registry × Loaded) :=
  some ((s.1.call c).2, (s.2.call s.1.pluginCapacity s.1.folder c).2)

/-- The registry answers as the map does, and the table has what is in the map afterwards. -/
def Agrees (s : Registry × Loaded) (c : Call) : Prop :=
  (s.1.call c).1 = (s.2.call s.1.pluginCapacity s.1.folder c).1 ∧
    Represents (s.1.call c).2 (s.2.call s.1.pluginCapacity s.1.folder c).2

/-- No plugin that exports its functions is loaded again into a full table. -/
def RoomToReload (s : Registry × Loaded) : Call → Prop
  | .load dlopen filename => s.1.pluginCapacity ≤ s.1.plugins.length →
      s.1.findPlugin filename ≠ none → exported s.1.folder dlopen filename = none
  | _ => True

section Registry

variable {r : Registry} {loaded : Loaded} {name : Name}

theorem findPlugin_eq_lookup (r : Registry) (name : Name) :
    r.findPlugin name = lookup Plugin.name r.plugins name := by
  rw [Registry.findPlugin, Registry.indexOf, lookup, List.find?_eq_bind_findIdx?_getElem?]

theorem getElem?_of_indexOf {i : ℕ} (h : r.indexOf name = some i) :
    ∃ p, r.plugins[i]? = some p ∧ p.name = name ∧ r.findPlugin name = some p := by
  obtain ⟨hlt, hname, -⟩ := List.findIdx?_eq_some_iff_getElem.mp h
  have hp : r.plugins[i]? = some r.plugins[i] := List.getElem?_eq_getElem hlt
  exact ⟨_, hp, of_decide_eq_true hname, by rw [Registry.findPlugin, h, Option.bind_some, hp]⟩

theorem findPlugin_of_indexOf (h : r.indexOf name = none) : r.findPlugin name = none := by
  rw [Registry.findPlugin, h, Option.bind_none]

theorem not_mem_of_indexOf (h : r.indexOf name = none) : name ∉ r.plugins.map Plugin.name := by
  have hfind := findPlugin_of_indexOf h
  rw [findPlugin_eq_lookup] at hfind
  exact lookup_eq_none_iff.mp hfind

theorem Represents.of_plugins {r' : Registry} (h : Represents r loaded)
    (hplugins : r'.plugins = r.plugins) : Represents r' loaded where
  keyed := hplugins ▸ h.keyed
  functions := fun name => by
    rw [findPlugin_eq_lookup, hplugins, ← findPlugin_eq_lookup, h.functions]

theorem plugins_closeEntry (r : Registry) (p : Option ℕ) :
    (r.closeEntry p).plugins = r.plugins := by
  rw [Registry.closeEntry]
  split <;> rfl

theorem folder_closeEntry (r : Registry) (p : Option ℕ) : (r.closeEntry p).folder = r.folder := by
  rw [Registry.closeEntry]
  split <;> rfl

theorem Represents.ncard (h : Represents r loaded) :
    {name | loaded name ≠ none}.ncard = r.plugins.length := by
  rw [← ncard_keys h.keyed]
  refine congrArg _ (Set.ext fun name => ?_)
  rw [Set.mem_ofPred_eq, Set.mem_ofPred_eq, h.functions, findPlugin_eq_lookup, ne_eq, ne_eq,
    Option.map_eq_none_iff]

theorem Represents.ne_none_iff (h : Represents r loaded) :
    loaded name ≠ none ↔ r.findPlugin name ≠ none := by
  rw [h.functions, ne_eq, ne_eq, Option.map_eq_none_iff]

theorem Represents.store (h : Represents r loaded) (hname : name.length < 256)
    (functions : Functions) (handle : ℕ) :
    Represents (r.store (r.indexOf name) name functions handle)
      (update loaded name (some functions)) := by
  cases hi : r.indexOf name with
  | none =>
      have hnot := not_mem_of_indexOf hi
      have htake : name.take 255 = name := List.take_of_length_le (by omega)
      rw [Registry.store, htake]
      refine ⟨keyed_append h.keyed hnot, fun other => ?_⟩
      rw [findPlugin_eq_lookup, lookup_append h.keyed hnot, update_apply, h.functions,
        findPlugin_eq_lookup]
      by_cases heq : other = name
      · rw [if_pos heq, if_pos heq.symm]
        rfl
      · rw [if_neg heq, if_neg fun hother => heq hother.symm]
  | some i =>
      obtain ⟨p, hp, rfl, -⟩ := getElem?_of_indexOf hi
      have hset : (r.store (some i) p.name functions handle).plugins =
          r.plugins.set i { functions with name := p.name, dlhandle := handle } := by
        rw [Registry.store]
        exact List.modify_eq_set_getElem? _ _ _ ▸ by rw [hp]; rfl
      have hkey : Plugin.name { functions with name := p.name, dlhandle := handle } = p.name := rfl
      refine ⟨?_, fun other => ?_⟩
      · rw [hset]
        exact keyed_set h.keyed hp hkey
      · rw [findPlugin_eq_lookup, hset, lookup_set h.keyed hp hkey, update_apply, h.functions,
          findPlugin_eq_lookup]
        by_cases heq : other = p.name
        · rw [if_pos heq, if_pos heq.symm]
          rfl
        · rw [if_neg heq, if_neg fun hother => heq hother.symm]

theorem Represents.swapRemove (h : Represents r loaded) {i : ℕ} (hi : r.indexOf name = some i)
    {r' : Registry} (hplugins : r'.plugins = KeyedTable.swapRemove r.plugins i) :
    Represents r' (update loaded name none) := by
  obtain ⟨p, hp, rfl, -⟩ := getElem?_of_indexOf hi
  refine ⟨hplugins ▸ keyed_swapRemove h.keyed hp, fun other => ?_⟩
  rw [findPlugin_eq_lookup, hplugins, lookup_swapRemove h.keyed hp, update_apply, h.functions,
    findPlugin_eq_lookup]
  by_cases heq : other = p.name
  · rw [if_pos heq, if_pos heq.symm]
    rfl
  · rw [if_neg heq, if_neg fun hother => heq hother.symm]

/-- A library that does not open or does not export its functions leaves the table alone. -/
theorem loadPlugin_of_none {dlopen : Dlopen} (hexported : exported r.folder dlopen name = none) :
    ∃ r', r.loadPlugin dlopen name = (false, r') ∧ r'.plugins = r.plugins := by
  have hplugins : (r.closeEntry (r.indexOf name)).plugins = r.plugins := plugins_closeEntry r _
  rw [Registry.loadPlugin]
  split_ifs
  · exact ⟨r, rfl, rfl⟩
  · dsimp only
    rw [folder_closeEntry]
    cases hopen : dlopen (fullpath r.folder name) with
    | none => exact ⟨_, rfl, hplugins⟩
    | some library =>
        obtain ⟨handle, initializeFn, writeToStream, buildUiElement⟩ := library
        refine ⟨(r.closeEntry (r.indexOf name)).dlclose handle, ?_, hplugins⟩
        rw [exported, hopen, Option.bind_some] at hexported
        cases writeToStream with
        | none => rfl
        | some writeToStream =>
            cases buildUiElement with
            | none => rfl
            | some buildUiElement => cases hexported

/-- A library that exports its functions is stored, unless the table is full. -/
theorem loadPlugin_of_some {dlopen : Dlopen} {functions : Functions}
    (hroom : r.plugins.length < r.pluginCapacity)
    (hexported : exported r.folder dlopen name = some functions) :
    ∃ (r₁ : Registry) (handle : ℕ), r₁.plugins = r.plugins ∧ r.loadPlugin dlopen name =
      (true, r₁.store (r₁.indexOf name) name functions handle) := by
  have hplugins : (r.closeEntry (r.indexOf name)).plugins = r.plugins := plugins_closeEntry r _
  have hindex : (r.closeEntry (r.indexOf name)).indexOf name = r.indexOf name := by
    conv_lhs => rw [Registry.indexOf, hplugins]
    rfl
  obtain ⟨⟨handle, initializeFn, writeToStream, buildUiElement⟩, hopen, hfunctions⟩ :=
    Option.bind_eq_some_iff.mp hexported
  refine ⟨r.closeEntry (r.indexOf name), handle, hplugins, ?_⟩
  rw [Registry.loadPlugin, if_neg (not_le.mpr hroom), hindex]
  dsimp only
  rw [folder_closeEntry, hopen]
  cases writeToStream with
  | none => cases hfunctions
  | some writeToStream =>
      cases buildUiElement with
      | none => cases hfunctions
      | some buildUiElement =>
          cases hfunctions
          rfl

theorem agrees_of_eq {c : Call} {response response' : Response} {r' : Registry} {loaded' : Loaded}
    (hr : r.call c = (response, r'))
    (hloaded : loaded.call r.pluginCapacity r.folder c = (response', loaded')) :
    Agrees (r, loaded) c ↔ response = response' ∧ Represents r' loaded' := by
  rw [Agrees, hr, hloaded]

/-- A call of `load_plugin` agrees unless it finds the table full and could reload the plugin. -/
theorem Represents.load_iff (h : Represents r loaded) {dlopen : Dlopen}
    (hname : name.length < 256) :
    Agrees (r, loaded) (.load dlopen name) ↔ RoomToReload (r, loaded) (.load dlopen name) := by
  cases hexported : exported r.folder dlopen name with
  | none =>
      obtain ⟨r', hload, hplugins⟩ := loadPlugin_of_none hexported
      have hcall : r.call (.load dlopen name) = (.loaded false, r') := by
        rw [Registry.call, hload]
      have hmap : loaded.call r.pluginCapacity r.folder (.load dlopen name) =
          (.loaded false, loaded) := by
        rw [Loaded.call, hexported]
      rw [agrees_of_eq hcall hmap]
      exact iff_of_true ⟨rfl, h.of_plugins hplugins⟩ fun _ _ => hexported
  | some functions =>
      rcases Nat.lt_or_ge r.plugins.length r.pluginCapacity with hroom | hfull
      · obtain ⟨r₁, handle, hplugins, hload⟩ := loadPlugin_of_some hroom hexported
        have hcall : r.call (.load dlopen name) =
            (.loaded true, r₁.store (r₁.indexOf name) name functions handle) := by
          rw [Registry.call, hload]
        have hmap : loaded.call r.pluginCapacity r.folder (.load dlopen name) =
            (.loaded true, update loaded name (some functions)) := by
          rw [Loaded.call, hexported]
          exact if_pos (Or.inr (h.ncard ▸ hroom))
        rw [agrees_of_eq hcall hmap]
        exact iff_of_true ⟨rfl, (h.of_plugins hplugins).store hname functions handle⟩
          fun hfull => absurd hroom (not_lt.mpr hfull)
      · have hcall : r.call (.load dlopen name) = (.loaded false, r) := by
          rw [Registry.call, Registry.loadPlugin, if_pos hfull]
        have hcard : ¬ {name | loaded name ≠ none}.ncard < r.pluginCapacity := by
          rw [h.ncard]
          exact not_lt.mpr hfull
        by_cases hfound : loaded name = none
        · have hmap : loaded.call r.pluginCapacity r.folder (.load dlopen name) =
              (.loaded false, loaded) := by
            rw [Loaded.call, hexported]
            exact if_neg (not_or.mpr ⟨fun hne => hne hfound, hcard⟩)
          rw [agrees_of_eq hcall hmap]
          exact iff_of_true ⟨rfl, h⟩ fun _ hne => absurd hfound (h.ne_none_iff.mpr hne)
        · -- the map takes the new functions, and the registry refuses
          have hmap : loaded.call r.pluginCapacity r.folder (.load dlopen name) =
              (.loaded true, update loaded name (some functions)) := by
            rw [Loaded.call, hexported]
            exact if_pos (Or.inl hfound)
          rw [agrees_of_eq hcall hmap]
          refine iff_of_false (fun hboth => ?_) fun hC => ?_
          · cases hboth.1
          · cases hexported.symm.trans (hC hfull (h.ne_none_iff.mp hfound))

theorem Represents.unload (h : Represents r loaded) : Agrees (r, loaded) (.unload name) := by
  have hmap : loaded.call r.pluginCapacity r.folder (.unload name) =
      (.unloaded (loaded name).isSome, update loaded name none) := rfl
  cases hi : r.indexOf name with
  | none =>
      have hnone : loaded name = none := by
        rw [h.functions, findPlugin_of_indexOf hi, Option.map_none]
      have hcall : r.call (.unload name) = (.unloaded false, r) := by
        rw [Registry.call, Registry.unloadPlugin, hi]
      rw [agrees_of_eq hcall hmap, hnone]
      have hsame : update loaded name none = loaded := hnone ▸ update_eq_self name loaded
      exact ⟨rfl, hsame.symm ▸ h⟩
  | some i =>
      obtain ⟨p, -, -, hfind⟩ := getElem?_of_indexOf hi
      have hsome : loaded name = some p.toFunctions := by
        rw [h.functions, hfind, Option.map_some]
      have hcall : r.call (.unload name) = (.unloaded true, { r.closeEntry (some i) with
          plugins := KeyedTable.swapRemove r.plugins i }) := by
        rw [Registry.call, Registry.unloadPlugin, hi]
      rw [agrees_of_eq hcall hmap, hsome]
      exact ⟨rfl, h.swapRemove hi rfl⟩

theorem Represents.agrees_iff (h : Represents r loaded) {c : Call} (hname : c.name.length < 256) :
    Agrees (r, loaded) c ↔ RoomToReload (r, loaded) c := by
  cases c with
  | load dlopen filename => exact h.load_iff hname
  | unload name => exact iff_of_true h.unload trivial
  | find name =>
      have hfound : r.call (.find name) = (.found (loaded name), r) := by
        rw [Registry.call, h.functions]
      exact iff_of_true ((agrees_of_eq hfound rfl).mpr ⟨rfl, h⟩) trivial

/-- A table stands for a map after `load_plugin`, also where a reload is refused. -/
theorem Represents.exists_load (h : Represents r loaded) (dlopen : Dlopen)
    (hname : name.length < 256) :
    ∃ loaded', Represents (r.loadPlugin dlopen name).2 loaded' := by
  rcases Nat.lt_or_ge r.plugins.length r.pluginCapacity with hroom | hfull
  · have hagrees : Agrees (r, loaded) (.load dlopen name) :=
      (h.load_iff hname).mpr fun hfull => absurd hroom (not_lt.mpr hfull)
    exact ⟨_, hagrees.2⟩
  · rw [Registry.loadPlugin, if_pos hfull]
    exact ⟨loaded, h⟩

theorem represents_empty (capacity : ℕ) (folder : List UInt8) :
    Represents ⟨[], capacity, folder, []⟩ fun _ => none :=
  ⟨List.nodup_nil, fun _ => rfl⟩

/-- The table of a registry that is created stands for a map, whatever is in the folder. -/
theorem represents_createRegistry (dlopen : Dlopen) (pathToFolder : List UInt8) (maxPlugins : ℕ)
    {entries : List Name} (hnames : ∀ name ∈ entries, name.length < 256) :
    ∃ loaded,
      Represents (Registry.createRegistry dlopen pathToFolder maxPlugins entries) loaded := by
  refine List.foldlRecOn (motive := fun r => ∃ loaded, Represents r loaded) _ _
    ⟨_, represents_empty maxPlugins _⟩ ?_
  rintro r ⟨loaded, h⟩ name hname
  exact h.exists_load dlopen (hnames name (List.mem_filter.mp hname).1)

theorem Represents.onFsEvent (h : Represents r loaded) (dlopen : Dlopen) (change : Bool)
    (hname : name.length < 256) :
    ∃ loaded', Represents (r.onFsEvent dlopen name change) loaded' := by
  rw [Registry.onFsEvent]
  split
  case isTrue => exact h.exists_load dlopen hname
  case isFalse => exact ⟨loaded, h⟩

end Registry

/-- In every sequence of calls with names shorter than 256 characters the registry behaves like
the map, if and only if no plugin that exports its functions is loaded again into a full
table. -/
theorem plugins_agree_iff {r : Registry} {loaded : Loaded} (h : Represents r loaded)
    {calls : List Call} (hnames : ∀ c ∈ calls, c.name.length < 256) :
    Along step Agrees (r, loaded) calls ↔ Along step RoomToReload (r, loaded) calls := by
  refine along_iff_along (I := fun s => Represents s.1 s.2) ?_ ?_ h
  · rintro ⟨r, loaded⟩ t c hc hs hC hstep
    cases hstep
    exact ((hs.agrees_iff (hnames c hc)).mpr hC).2
  · rintro ⟨r, loaded⟩ t c hc hs -
    exact hs.agrees_iff (hnames c hc)

/-- A library with the two functions that are needed. -/
def decoderLibrary : Library := ⟨1, none, some 2, some 3⟩

/-- A second plugin finds the table full, and is loaded when there is room again. -/
theorem plugins_agree_twoPlugins : Along step Agrees (⟨[], 1, [], []⟩, fun _ => none)
    [.load (fun _ => some decoderLibrary) [97], .find [97],
      .load (fun _ => some decoderLibrary) [98], .unload [97],
      .load (fun _ => some decoderLibrary) [98]] := by
  refine (plugins_agree_iff (represents_empty 1 []) (by simp [Call.name])).mpr ?_
  refine fun s hs => ⟨fun hfull => absurd hfull (by decide), ?_⟩
  cases hs
  refine fun s hs => ⟨trivial, ?_⟩
  cases hs
  refine fun s hs => ⟨fun _ hne => absurd rfl hne, ?_⟩
  cases hs
  refine fun s hs => ⟨trivial, ?_⟩
  cases hs
  exact fun s hs => ⟨fun hfull => absurd hfull (by decide), trivial⟩

/-- A plugin that fills the table is not reloaded. -/
theorem reload_refused :
    ((Registry.mk [] 1 [] []).loadPlugin (fun _ => some decoderLibrary) [97]).1 = true ∧
    ((Registry.mk [] 1 [] []).loadPlugin (fun _ => some decoderLibrary) [97]).2.loadPlugin
      (fun _ => some ⟨4, none, some 5, some 6⟩) [97] = (false,
        ((Registry.mk [] 1 [] []).loadPlugin (fun _ => some decoderLibrary) [97]).2) ∧
    ¬ Along step Agrees (⟨[], 1, [], []⟩, fun _ => none)
      [.load (fun _ => some decoderLibrary) [97],
        .load (fun _ => some ⟨4, none, some 5, some 6⟩) [97]] := by
  refine ⟨rfl, rfl, fun h => ?_⟩
  obtain ⟨hfirst, hrest⟩ := h _ rfl
  have hroom := (hfirst.2.load_iff (by decide)).mp (hrest _ rfl).1
  cases hroom (by decide) fun hnone => nomatch hnone

end Plugins

end ConArtist
