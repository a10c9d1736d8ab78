import ConArtist.Foundation.KeyedTable

/-!
# The plugin registry

The model of `decoder_plugins.cpp`. The table is the list of its entries in use. The dynamic
loader comes with each call as a function from paths to libraries; what is passed to `dlclose`
is kept in a list. Names are without their closing zero.
-/

namespace ConArtist

namespace Plugins

open KeyedTable

/-- The characters of a C string. -/
abbrev Name := List UInt8

/-- A library that `dlopen` has opened: its handle and what `dlsym` finds in it. -/
structure Library where
  handle : ℕ
  decoderInitialize : Option ℕ
  decoderWriteToStream : Option ℕ
  decoderBuildUiElement : Option ℕ

/-- `dlopen`, at the time of a call. -/
abbrev Dlopen := List UInt8 → Option Library

/-- The three functions of a plugin. The first may be missing. -/
structure Functions where
  initializeFn : Option ℕ
  writeToStreamFn : ℕ
  buildUiElementFn : ℕ

/-- `fullpath`, of 512 bytes. -/
def fullpath (folder : List UInt8) (filename : Name) : List UInt8 :=
  (folder ++ 47 :: filename).take 511

/-- `plugin_t`. -/
structure Plugin extends Functions where
  name : Name
  dlhandle : ℕ

/-- `registry_t`, with the handles that were closed. -/
structure Registry where
  plugins : List Plugin
  pluginCapacity : ℕ
  folder : List UInt8
  closed : List ℕ

namespace Registry

/-- The loop over the names, which stops at the first that is equal. -/
def indexOf (r : Registry) (name : Name) : Option ℕ :=
  r.plugins.findIdx? fun p => p.name = name

/-- A call of `dlclose`. -/
def dlclose (r : Registry) (handle : ℕ) : Registry :=
  { r with closed := r.closed ++ [handle] }

/-- The handle of an entry that is about to be reloaded is closed. -/
def closeEntry (r : Registry) (p : Option ℕ) : Registry :=
  match p.bind fun i => r.plugins[i]? with
  | some plugin => r.dlclose plugin.dlhandle
  | none => r

/-- What is written to the new or the old entry of a plugin. -/
def store (r : Registry) (p : Option ℕ) (filename : Name) (functions : Functions) (handle : ℕ) :
    Registry :=
  match p with
  | none =>
      { r with plugins := r.plugins ++ [{ functions with
          name := filename.take 255
          dlhandle := handle }] }
  | some i =>
      { r with plugins := r.plugins.modify i fun plugin => { functions with
          name := plugin.name
          dlhandle := handle } }

/-- `load_plugin`. -/
def loadPlugin (r : Registry) (dlopen : Dlopen) (filename : Name) : Bool × Registry :=
  if r.pluginCapacity ≤ r.plugins.length then (false, r)
  else
    let p := r.indexOf filename
    let r := r.closeEntry p
    match dlopen (fullpath r.folder filename) with
    | none => (false, r)
    | some library =>
        match library.decoderWriteToStream, library.decoderBuildUiElement with
        | some writeToStream, some buildUiElement =>
            (true, r.store p filename ⟨library.decoderInitialize, writeToStream, buildUiElement⟩
              library.handle)
        | _, _ => (false, r.dlclose library.handle)

/-- `unload_plugin`. -/
def unloadPlugin (r : Registry) (name : Name) : Bool × Registry :=
  match r.indexOf name with
  | some i => (true, { r.closeEntry (some i) with plugins := swapRemove r.plugins i })
  | none => (false, r)

/-- `find_plugin`: the entry that the pointer shows. -/
def findPlugin (r : Registry) (name : Name) : Option Plugin :=
  (r.indexOf name).bind fun i => r.plugins[i]?

/-- `has_so_extension`: what follows the last dot, the dot included, is `.dylib`. -/
def hasSoExtension (filename : Name) : Bool :=
  filename.any (· == 46) &&
    (filename.reverse.takeWhile (· ≠ 46)).reverse == [100, 121, 108, 105, 98]

/-- `create_registry`, with the names that `readdir` gives. -/
def createRegistry (dlopen : Dlopen) (pathToFolder : List UInt8) (maxPlugins : ℕ)
    (entries : List Name) : Registry :=
  (entries.filter hasSoExtension).foldl (fun r filename => (r.loadPlugin dlopen filename).2)
    ⟨[], maxPlugins, pathToFolder.take 255, []⟩

/-- `on_fs_event`, for an event without an error, which has a filename. -/
def onFsEvent (r : Registry) (dlopen : Dlopen) (filename : Name) (change : Bool) : Registry :=
  if hasSoExtension filename && change then (r.loadPlugin dlopen filename).2 else r

/-- `destroy_registry` closes all handles. -/
def destroyRegistry (r : Registry) : List ℕ := r.closed ++ r.plugins.map Plugin.dlhandle

end Registry

/-- The functions of a library that exports the two that are needed. -/
def Library.functions (library : Library) : Option Functions :=
  match library.decoderWriteToStream, library.decoderBuildUiElement with
  | some writeToStream, some buildUiElement =>
      some ⟨library.decoderInitialize, writeToStream, buildUiElement⟩
  | _, _ => none

/-- A call of one of the three functions. -/
inductive Call where
  | load (dlopen : Dlopen) (filename : Name)
  | unload (name : Name)
  | find (name : Name)

def Call.name : Call → Name
  | .load _ filename => filename
  | .unload name => name
  | .find name => name

/-- What a call returns. Of an entry that is found it is the functions. -/
inductive Response where
  | loaded (result : Bool)
  | unloaded (result : Bool)
  | found (functions : Option Functions)

def Registry.call (r : Registry) : Call → Response × Registry
  | .load dlopen filename =>
      let (result, r) := r.loadPlugin dlopen filename
      (.loaded result, r)
  | .unload name =>
      let (result, r) := r.unloadPlugin name
      (.unloaded result, r)
  | .find name => (.found ((r.findPlugin name).map Plugin.toFunctions), r)

end Plugins

end ConArtist
