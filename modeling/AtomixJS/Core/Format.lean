import AtomixJS.Core.Instruction

/-!
# Loaded modules and bundles

The structures of `format.impl.h` and the two lookups of `format.c`.  Offsets,
lengths and search bounds keep the width they have in C, so that a difference
that wraps is visible; a read outside an array is a fault.
-/

namespace AtomixJS

abbrev BundleRef := ℕ

/-- `struct StringTable`, with as many offsets as it counts. -/
structure StringTable where
  length : UInt32
  count : UInt32
  offsets : List UInt32
  strings : List UInt8
  count_eq : offsets.length = count.toNat
  deriving DecidableEq, Repr

/-- `struct DataSection`, with as many instructions as it counts.  A `NOP` is
the null pointer. -/
structure DataSection where
  length : UInt32
  count : UInt32
  instructions : List (Option Inst)
  count_eq : instructions.length = count.toNat
  deriving DecidableEq, Repr

/-- The header of a module. -/
structure ModuleHeader where
  magic : List UInt8
  version : UInt16
  hash : UInt64
  stringTable : UInt32
  dataSection : UInt32
  deriving DecidableEq, Repr

/-- `struct JSModule`.  A native module has no scope. -/
structure JSModule where
  bundle : Option BundleRef
  header : ModuleHeader
  stringTable : StringTable
  dataSection : DataSection
  initialized : Bool
  exports : ObjectRef
  scope : Option ScopeRef
  deriving DecidableEq, Repr

/-- `struct JSBundle`, with as many modules as it counts. -/
structure JSBundle where
  magic : List UInt8
  version : UInt16
  entryPoint : UInt64
  moduleCount : UInt16
  modules : List JSModule
  count_eq : modules.length = moduleCount.toNat

/-- The table with the given strings, one behind the other. -/
def StringTable.ofStrings (strings : List CString) (h : strings.length < 2 ^ 32) : StringTable where
  length := UInt32.ofNat (8 + 4 * strings.length + strings.flatten.length)
  count := UInt32.ofNat strings.length
  offsets := (List.range strings.length).map fun i => UInt32.ofNat (strings.take i).flatten.length
  strings := strings.flatten
  count_eq := by
    rw [List.length_map, List.length_range, UInt32.toNat_ofNat', Nat.mod_eq_of_lt h]

theorem no_strings_lt : ([] : List CString).length < 2 ^ 32 := by decide

theorem one_string_lt : [cString "a"].length < 2 ^ 32 := by decide

theorem no_code_lt : ([] : List (Option Inst)).length < 2 ^ 32 := by decide

/-- A module with the given strings and instructions. -/
def JSModule.ofCode (strings : List CString) (code : List (Option Inst))
    (hstrings : strings.length < 2 ^ 32) (hcode : code.length < 2 ^ 32) : JSModule where
  bundle := none
  header := { magic := [], version := 2, hash := 0, stringTable := 0, dataSection := 0 }
  stringTable := StringTable.ofStrings strings hstrings
  dataSection :=
    { length := 0
      count := UInt32.ofNat code.length
      instructions := code
      count_eq := by rw [UInt32.toNat_ofNat', Nat.mod_eq_of_lt hcode] }
  initialized := false
  exports := 0
  scope := some 0

/-- The module that `register_native_module` makes.  What is not set is zero. -/
def JSModule.native (hash : UInt64) (exports : ObjectRef) : JSModule where
  bundle := none
  header := { magic := [0, 0, 0, 0], version := 0, hash, stringTable := 0, dataSection := 0 }
  stringTable := { length := 0, count := 0, offsets := [], strings := [], count_eq := rfl }
  dataSection := { length := 0, count := 0, instructions := [], count_eq := rfl }
  initialized := true
  exports
  scope := none

/-- `register_native_module`, which puts the module in front of the others. -/
def registerNativeModule (hash : UInt64) (exports : ObjectRef) (nativeModules : List JSModule) :
    List JSModule := JSModule.native hash exports :: nativeModules

/-! ## Strings -/

/-- The length of a string: up to the next offset, or for the last string up to
the end of the section. -/
def StringTable.stringLength (table : StringTable) (idx offset : UInt32) : Option UInt32 :=
  if idx = table.count - 1 then some (table.length - (offset + 2 * 4 + table.count * 4))
  else table.offsets[idx.toNat + 1]?.map (· - offset)

/-- `string_table_load_str`.  The copy ends at its first zero byte. -/
def stringTableLoadStr (table : StringTable) (idx : UInt32) : Except Fault CString :=
  if table.count ≤ idx then .error (.panic "StringTable idx is out of bounds")
  else
    match table.offsets[idx.toNat]? with
    | none => .error (.undefinedBehaviour "offset read outside the string table")
    | some offset =>
      match table.stringLength idx offset with
      | none => .error (.undefinedBehaviour "offset read outside the string table")
      | some length =>
        if table.strings.length < offset.toNat + length.toNat then
          .error (.undefinedBehaviour "string read outside the string table")
        else .ok (((table.strings.drop offset.toNat).take length.toNat).takeWhile (· ≠ 0))

/-! ## Module lookup -/

/-- Where `bundle_get_module` finds a module. -/
inductive ModuleLocation
  | bundle (index : ℕ)
  | native (index : ℕ)
  deriving DecidableEq, Repr

/-- What one round of the binary search does. -/
inductive SearchStep
  | stop
  | outside (index : ℕ)
  | found (index : ℕ)
  | next (low high : UInt16)
  deriving DecidableEq, Repr

/-- One round of the binary search of `bundle_get_module`. -/
def searchStep (hashes : List UInt64) (hash : UInt64) (low high : UInt16) : SearchStep :=
  if low ≤ high then
    let mid := low + (high - low) / 2
    match hashes[mid.toNat]? with
    | none => .outside mid.toNat
    | some h =>
      if h = hash then .found mid.toNat
      else if h < hash then .next (mid + 1) high
      else .next low (mid - 1)
  else .stop

/-- The search loop.  A result of `none` means that the rounds were used up. -/
def search (hashes : List UInt64) (hash : UInt64) :
    ℕ → UInt16 → UInt16 → Option (Except Fault (Option ℕ))
  | 0, _, _ => none
  | rounds + 1, low, high =>
    match searchStep hashes hash low high with
    | .stop => some (.ok none)
    | .outside _ => some (.error (.undefinedBehaviour "module read outside the bundle"))
    | .found index => some (.ok (some index))
    | .next low high => search hashes hash rounds low high

/-- `bundle_get_module`.  There are `2 ^ 32` pairs of bounds, so a search that
takes more rounds repeats one and never ends. -/
def bundleGetModule (bundle : Option JSBundle) (nativeModules : List JSModule) (hash : UInt64) :
    Except Fault ModuleLocation := do
  let inBundle ←
    match bundle with
    | none => pure none
    | some bundle =>
      (search (bundle.modules.map (·.header.hash)) hash (2 ^ 32 + 1) 0 bundle.moduleCount).getD
        (.error .divergence)
  match inBundle with
  | some index => pure (.bundle index)
  | none =>
    match nativeModules.findIdx? (·.header.hash = hash) with
    | some index => pure (.native index)
    | none => .error (.panic "Could not find module in bundle")

end AtomixJS
