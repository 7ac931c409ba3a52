import PackagePlan.Proofs.Data.Alike
import PackagePlan.Proofs.Toml.RoundTrip
import PackagePlan.Universe.File

/-! # Universes written and read

A universe is read as it has been written, but for entries without a slot: a
missing slot is left out of the text, and an entry of which no slot is told
is read with the default one.
-/

namespace PackagePlan

open Datum Toml

variable {n : Nat} {d : Datum} {entries : List (String × Datum)}

section Nulls

theorem Toml.Plain.nodup_keys (h : Plain n (.table entries)) : (entries.map (·.1)).Nodup := by
  cases h
  assumption

theorem Datum.entriesWithoutNulls_cons (h : d ≠ .null) (k : String)
    (entries : List (String × Datum)) :
    entriesWithoutNulls ((k, d) :: entries) =
      (k, d.withoutNulls) :: entriesWithoutNulls entries := by
  cases d <;> first | rfl | exact absurd rfl h

theorem Datum.entriesWithoutNulls_eq_self
    (h : ∀ e ∈ entries, e.2 ≠ .null ∧ e.2.withoutNulls = e.2) :
    entriesWithoutNulls entries = entries := by
  induction entries with
  | nil => rfl
  | cons e entries ih =>
    obtain ⟨⟨hnull, heq⟩, h⟩ := List.forall_mem_cons.1 h
    rw [entriesWithoutNulls_cons hnull, heq, ih h]

theorem Datum.itemsWithoutNulls_eq_map (ds : List Datum) :
    itemsWithoutNulls ds = ds.map withoutNulls := by
  induction ds with
  | nil => rfl
  | cons d ds ih => rw [itemsWithoutNulls, ih, List.map_cons]

theorem Toml.Plain.full (h : Plain n d) : d ≠ .null ∧ d.withoutNulls = d := by
  induction h with
  | bool => exact ⟨nofun, rfl⟩
  | string => exact ⟨nofun, rfl⟩
  | @array _ ds _ ih =>
    have hds : ds.map withoutNulls = ds := by
      rw [List.map_congr_left fun d hd => (ih d hd).2, List.map_id']
    exact ⟨nofun, by rw [withoutNulls, itemsWithoutNulls_eq_map, hds]⟩
  | table _ _ ih => exact ⟨nofun, by rw [withoutNulls, entriesWithoutNulls_eq_self ih]⟩

end Nulls

section Entries

def slotField (slot : Option String) : List (String × Datum) :=
  slot.toList.map fun s => ("slot", .string s)

def entryFields (name version : String) (slot : Option String) (more : List (String × Datum)) :
    List (String × Datum) :=
  ("name", .string name) :: ("version", .string version) :: (slotField slot ++ more)

variable {name version : String} {slot : Option String} {more : List (String × Datum)}
  {fields : Fields}

theorem entriesWithoutNulls_entry (hmore : ∀ e ∈ more, Plain n e.2) :
    entriesWithoutNulls
      (("name", .string name) :: ("version", .string version) :: ("slot", slotDatum slot) :: more) =
      entryFields name version slot more := by
  have hfull : entriesWithoutNulls more = more :=
    entriesWithoutNulls_eq_self fun e he => (hmore e he).full
  cases slot <;> simp [entriesWithoutNulls, withoutNulls, slotDatum, entryFields, slotField, hfull]

theorem plain_entry (hkeys : ("name" :: "version" :: "slot" :: more.map (·.1)).Nodup)
    (hmore : ∀ e ∈ more, Plain n e.2) :
    Plain (n + 1) (.table (entryFields name version slot more)) := by
  cases slot with
  | none =>
    refine .table (hkeys.sublist ?_) ?_
    · simp [entryFields, slotField]
    · simpa [entryFields, slotField, Plain.string] using hmore
  | some s =>
    refine .table hkeys ?_
    simpa [entryFields, slotField, Plain.string] using hmore

theorem lookup_entryFields {k : String} (hk : k ∉ ["name", "version", "slot"]) :
    lookup k (entryFields name version slot more) = lookup k more := by
  simp only [List.mem_cons, List.not_mem_nil, or_false, not_or] at hk
  obtain ⟨hname, hversion, hslot⟩ := hk
  cases slot <;>
    simp [entryFields, slotField, lookup, Ne.symm hname, Ne.symm hversion, Ne.symm hslot]

theorem Datum.Finds.entry_name (h : Finds (entryFields name version slot more) fields) :
    fields.required "name" asString = some name :=
  h.required rfl (reads_string name)

theorem Datum.Finds.entry_version (h : Finds (entryFields name version slot more) fields) :
    fields.required "version" asString = some version :=
  h.required rfl (reads_string version)

theorem Datum.Finds.entry_slot (h : Finds (entryFields name version slot more) fields)
    (hmore : lookup "slot" more = none) :
    fields.withDefault "slot" (asOption asString) defaultSlot = some (slot.or defaultSlot) := by
  cases slot with
  | none => exact h.default hmore _ _
  | some s => exact h.withDefault rfl (reads_some_string s) _

theorem Datum.Finds.entry_other (h : Finds (entryFields name version slot more) fields) {k : String}
    (hk : k ∉ ["name", "version", "slot"]) (hd : lookup k more = some d) {α : Type}
    {f : Decoder α} {x : α} (hread : Reads f d x) (y : α) : fields.withDefault k f y = some x :=
  h.withDefault ((lookup_entryFields hk).trans hd) hread y

theorem plain_map {α : Type} {write : α → Datum} (hwrite : ∀ x, Plain n (write x))
    (m : OrderedMap String α) :
    Plain (n + 1) (.table (m.entries.map fun e => (e.1, write e.2))) := by
  refine .table ?_ fun e he => ?_
  · simpa [OrderedMap.keys, Function.comp_def] using m.nodup_keys
  · obtain ⟨x, -, rfl⟩ := List.mem_map.1 he
    exact hwrite x.2

theorem plain_choices (choices : Choices) : Plain (n + 1) (choicesDatum choices) := by
  have flag : ∀ on, Plain n (.bool on) := fun _ => .bool
  exact plain_map flag choices

theorem reads_choices (choices : Choices) : Reads (asMap asBool) (choicesDatum choices) choices :=
  reads_map reads_bool choices

namespace PackageEntry

/-- The entry with the default slot in place of none. -/
def withSlot (e : PackageEntry) : PackageEntry := { e with slot := e.slot.or defaultSlot }

theorem withSlot_eq_self_iff {e : PackageEntry} : e.withSlot = e ↔ e.slot.isSome := by
  obtain ⟨_, _, slot, _, _, _, _, _, _⟩ := e
  cases slot <;> simp [withSlot, defaultSlot]

def afterSlot (e : PackageEntry) : List (String × Datum) :=
  [("repository", .string e.repository), ("origin", .string e.origin.name),
    ("masked", .bool e.masked), ("transient", .bool e.transient),
    ("choices", choicesDatum e.choices), ("dependencies", .string e.dependencies)]

theorem plain_afterSlot (e : PackageEntry) : ∀ x ∈ e.afterSlot, Plain (n + 1) x.2 := by
  simp [afterSlot, Plain.string, Plain.bool, plain_choices]

def written (e : PackageEntry) : Datum :=
  .table (entryFields e.name e.version e.slot e.afterSlot)

theorem toDatum_withoutNulls (e : PackageEntry) : e.toDatum.withoutNulls = e.written :=
  congrArg Datum.table (entriesWithoutNulls_entry (n := 1) e.plain_afterSlot)

theorem plain_written (e : PackageEntry) : Plain (n + 2) e.written :=
  plain_entry (by simp [afterSlot]) e.plain_afterSlot

theorem reads_written (e : PackageEntry) : Reads (decode .toml) e.written e.withSlot := by
  intro d h
  obtain ⟨entries, rfl, hfind⟩ := h.finds (e.plain_written (n := 0)).nodup_keys
  have origin_read : EntryOrigin.ofName? e.origin.name = some e.origin := by
    cases e.origin <;> rfl
  have repository := hfind.entry_other (k := "repository") (by decide) rfl (reads_string _)
  have origin := hfind.entry_other (k := "origin") (by decide) rfl (reads_name .toml origin_read)
  have masked := hfind.entry_other (k := "masked") (by decide) rfl (reads_bool _)
  have transient := hfind.entry_other (k := "transient") (by decide) rfl (reads_bool _)
  have choices := hfind.entry_other (k := "choices") (by decide) rfl (reads_choices _)
  have dependencies := hfind.entry_other (k := "dependencies") (by decide) rfl (reads_string _)
  simp only [decode, asRecord, Option.bind_eq_bind, Option.bind_some, hfind.entry_name,
    hfind.entry_version, hfind.entry_slot rfl, repository, origin, masked, transient, choices,
    dependencies]
  rfl

end PackageEntry

namespace InstalledEntry

def withSlot (e : InstalledEntry) : InstalledEntry := { e with slot := e.slot.or defaultSlot }

theorem withSlot_eq_self_iff {e : InstalledEntry} : e.withSlot = e ↔ e.slot.isSome := by
  obtain ⟨_, _, slot, _, _, _, _⟩ := e
  cases slot <;> simp [withSlot, defaultSlot]

def afterSlot (e : InstalledEntry) : List (String × Datum) :=
  [("root", .string e.root.name), ("transient", .bool e.transient),
    ("choices", choicesDatum e.choices), ("dependencies", .string e.dependencies)]

theorem plain_afterSlot (e : InstalledEntry) : ∀ x ∈ e.afterSlot, Plain (n + 1) x.2 := by
  simp [afterSlot, Plain.string, Plain.bool, plain_choices]

def written (e : InstalledEntry) : Datum :=
  .table (entryFields e.name e.version e.slot e.afterSlot)

theorem toDatum_withoutNulls (e : InstalledEntry) : e.toDatum.withoutNulls = e.written :=
  congrArg Datum.table (entriesWithoutNulls_entry (n := 1) e.plain_afterSlot)

theorem plain_written (e : InstalledEntry) : Plain (n + 2) e.written :=
  plain_entry (by simp [afterSlot]) e.plain_afterSlot

theorem reads_written (e : InstalledEntry) : Reads (decode .toml) e.written e.withSlot := by
  intro d h
  obtain ⟨entries, rfl, hfind⟩ := h.finds (e.plain_written (n := 0)).nodup_keys
  have root_read : InstallRoot.ofName? e.root.name = some e.root := by
    cases e.root <;> rfl
  have root := hfind.entry_other (k := "root") (by decide) rfl (reads_name .toml root_read)
  have transient := hfind.entry_other (k := "transient") (by decide) rfl (reads_bool _)
  have choices := hfind.entry_other (k := "choices") (by decide) rfl (reads_choices _)
  have dependencies := hfind.entry_other (k := "dependencies") (by decide) rfl (reads_string _)
  simp only [decode, asRecord, Option.bind_eq_bind, Option.bind_some, hfind.entry_name,
    hfind.entry_version, hfind.entry_slot rfl, root, transient, choices, dependencies]
  rfl

end InstalledEntry

end Entries

namespace Universe

def withSlots (u : Universe) : Universe :=
  { u with
    packages := u.packages.map PackageEntry.withSlot
    installed := u.installed.map InstalledEntry.withSlot }

def written (u : Universe) : List (String × Datum) :=
  [("package", .array (u.packages.map PackageEntry.written)),
    ("installed", .array (u.installed.map InstalledEntry.written)), ("sets", setsDatum u.sets)]

theorem plain_sets (sets : OrderedMap String (List String)) : Plain (n + 2) (setsDatum sets) := by
  have set : ∀ specs : List String, Plain (n + 1) (.array (specs.map .string)) := fun _ =>
    .array (List.forall_mem_map.2 fun _ _ => .string)
  exact plain_map set sets

theorem reads_sets (sets : OrderedMap String (List String)) :
    Reads (asMap asStrings) (setsDatum sets) sets :=
  reads_map reads_strings sets

theorem fields_withoutNulls (u : Universe) : entriesWithoutNulls u.fields = u.written := by
  obtain ⟨present, full⟩ := (plain_sets (n := 0) u.sets).full
  simp [fields, written, entriesWithoutNulls, withoutNulls, itemsWithoutNulls_eq_map,
    PackageEntry.toDatum_withoutNulls, InstalledEntry.toDatum_withoutNulls,
    entriesWithoutNulls_cons present, full]

theorem nodup_written (u : Universe) : (u.written.map (·.1)).Nodup := by
  simp [written]

theorem plain_written (u : Universe) : ∀ e ∈ u.written, Plain (n + 3) e.2 := by
  have packages : Plain (n + 3) (.array (u.packages.map PackageEntry.written)) :=
    .array (List.forall_mem_map.2 fun e _ => e.plain_written)
  have installed : Plain (n + 3) (.array (u.installed.map InstalledEntry.written)) :=
    .array (List.forall_mem_map.2 fun e _ => e.plain_written)
  simp [written, packages, installed, plain_sets]

theorem reads_written (u : Universe) : Reads (decode .toml) (.table u.written) u.withSlots := by
  intro d h
  obtain ⟨entries, rfl, hfind⟩ := h.finds u.nodup_written
  have packages := hfind.withDefault (k := "package") rfl
    (reads_list PackageEntry.reads_written u.packages) []
  have installed := hfind.withDefault (k := "installed") rfl
    (reads_list InstalledEntry.reads_written u.installed) []
  have sets := hfind.withDefault (k := "sets") rfl (reads_sets u.sets) ∅
  simp only [decode, asRecord, Option.bind_eq_bind, Option.bind_some, packages, installed, sets]
  rfl

/-- What is written of the fields of a universe is read as the same data without what is missing,
but for the order of keys. -/
def KeepsFields (write : List (String × Datum) → Option String)
    (read : String → Option (List (String × Datum))) : Prop :=
  ∀ (u : Universe) text, write u.fields = some text →
    ∃ entries, read text = some entries ∧ Alike u.toDatum.withoutNulls (.table entries)

theorem keepsFields_toml :
    KeepsFields (fun fields => some (Toml.write (entriesWithoutNulls fields))) Toml.read := by
  intro u text h
  obtain rfl := Option.some.inj h
  refine ⟨u.written, ?_, ?_⟩
  · rw [u.fields_withoutNulls]
    exact read_write u.nodup_written u.plain_written
  · rw [toDatum, withoutNulls, u.fields_withoutNulls]
    exact .refl _

variable {u : Universe} {text : String} {write : List (String × Datum) → Option String}
  {read : String → Option (List (String × Datum))}

theorem decode_of_keepsFields (h : KeepsFields write read) (htext : write u.fields = some text) :
    (do decode .toml (.table (← read text))) = some u.withSlots := by
  obtain ⟨entries, hread, hd⟩ := h u text htext
  rw [toDatum, withoutNulls, u.fields_withoutNulls] at hd
  simp only [hread, Option.bind_eq_bind, Option.bind_some, u.reads_written _ hd]

theorem parse?_toToml (u : Universe) : parse? u.toToml = some u.withSlots :=
  decode_of_keepsFields keepsFields_toml rfl

theorem withSlots_eq_self_iff :
    u.withSlots = u ↔
      (∀ e ∈ u.packages, e.slot.isSome) ∧ ∀ e ∈ u.installed, e.slot.isSome := by
  have map_eq_self : ∀ {α : Type} (f : α → α) (l : List α), l.map f = l ↔ ∀ x ∈ l, f x = x := by
    intro α f l
    simpa using List.map_eq_map_iff (f := f) (g := id) (l := l)
  obtain ⟨packages, installed, sets⟩ := u
  simp [withSlots, map_eq_self, PackageEntry.withSlot_eq_self_iff,
    InstalledEntry.withSlot_eq_self_iff]

/-- A universe is read from its text with the default slot for entries without a slot, and as it is
if and only if every entry has a slot. -/
theorem survives_writing (u : Universe) :
    (∀ write read, KeepsFields write read → ∀ text, write u.fields = some text →
      (do decode .toml (.table (← read text))) = some u.withSlots) ∧
    parse? u.toToml = some u.withSlots ∧
    (u.withSlots = u ↔
      (∀ e ∈ u.packages, e.slot.isSome) ∧ ∀ e ∈ u.installed, e.slot.isSome) :=
  ⟨fun _ _ h _ htext => decode_of_keepsFields h htext, u.parse?_toToml, withSlots_eq_self_iff⟩

theorem survives_writing_editor :
    let write := fun fields => some (Toml.write (entriesWithoutNulls fields))
    let editor : PackageEntry :=
      { name := "app/editor", version := "2.1", slot := some "2", repository := "overlay",
        origin := .binary, masked := true, transient := true, choices := .ofList [("spell", true)],
        dependencies := "dev/libfoo" }
    let libfoo : InstalledEntry :=
      { name := "dev/libfoo", version := "1.0", slot := some "", root := .chroot, transient := true,
        choices := .ofList [("static", false)], dependencies := "!app/old" }
    let u : Universe :=
      { packages := [editor], installed := [libfoo], sets := .ofList [("world", ["app/editor"])] }
    KeepsFields write Toml.read ∧ write u.fields = some u.toToml ∧ parse? u.toToml = some u :=
  ⟨keepsFields_toml, rfl, (survives_writing _).1 _ _ keepsFields_toml _ rfl⟩

/-- An entry without a slot is read with one. -/
theorem slotless_not_kept :
    parse? (toToml { packages := [{ name := "app/a", version := "1", slot := none }] }) =
      some { packages := [{ name := "app/a", version := "1", slot := some "0" }] } := by
  rw [parse?_toToml]
  rfl

end Universe

end PackagePlan
