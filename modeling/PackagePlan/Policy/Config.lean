import PackagePlan.Data.Decode
import PackagePlan.Data.Json
import PackagePlan.Data.Toml.Reader
import PackagePlan.Policy.Preferences
import PackagePlan.Policy.Seeds
import PackagePlan.Requirement.Parser

/-! # Configuration

A configuration as it is written in a file, every part of it optional, and the
preferences and presets that it stands for.
-/

namespace PackagePlan

def defaultMaxRestarts : Nat := 9000

structure ResolverSection where
  maxRestarts : Nat := defaultMaxRestarts
  promoteBinaries : Bool := false
  followInstalled : Bool := true
  followInstalledBuild : Bool := false
  suggestions : Interest := .untaken
  recommendations : Interest := .take
  targetDestination : Destination := .slash
  deriving DecidableEq

structure OrderSection where
  early : List String := []
  late : List String := []
  deriving DecidableEq

structure DestinationsSection where
  slash : String := "installed"
  chroot : String := "chroot"
  binary : String := "binaries"
  viaBinary : List String := []
  deriving DecidableEq

structure RequirementLists where
  preset : List String := []
  without : List String := []
  reinstall : List String := []
  presume : List String := []
  hide : List String := []
  notUsable : List String := []
  protectedIds : List String := []
  removeIfDependent : List String := []
  noRestartsFor : List String := []
  noDependenciesFrom : List String := []
  take : List String := []
  ignore : List String := []
  deriving DecidableEq

structure Config where
  resolver : ResolverSection := {}
  keep : KeepModes := {}
  permits : Permits := {}
  order : OrderSection := {}
  destinations : DestinationsSection := {}
  lists : RequirementLists := {}
  deriving DecidableEq

inductive ConfigFault
  | requirement (key : String) (e : InvalidRequirement)
  | unnamedRepository (key : String)

def ConfigFault.message : ConfigFault → String
  | requirement key e => s!"Configuration error: {key}: {e.message}"
  | unnamedRepository key => s!"Configuration error: {key} must name a repository"

open Datum

section

variable (fmt : Format)

def ResolverSection.decode : Decoder ResolverSection := fun d => do
  let f ← asRecord fmt ["max_restarts", "promote_binaries", "follow_installed_dependencies",
    "follow_installed_build_dependencies", "suggestions", "recommendations",
    "target_destination"] d
  let start : ResolverSection := {}
  some
    { maxRestarts := ← f.withDefault "max_restarts" asCount start.maxRestarts
      promoteBinaries := ← f.withDefault "promote_binaries" asBool start.promoteBinaries
      followInstalled :=
        ← f.withDefault "follow_installed_dependencies" asBool start.followInstalled
      followInstalledBuild :=
        ← f.withDefault "follow_installed_build_dependencies" asBool start.followInstalledBuild
      suggestions := ← f.withDefault "suggestions" (asName fmt Interest.ofName?) start.suggestions
      recommendations :=
        ← f.withDefault "recommendations" (asName fmt Interest.ofName?) start.recommendations
      targetDestination :=
        ← f.withDefault "target_destination" (asName fmt Destination.ofTargetName?)
          start.targetDestination }

def KeepModes.decode : Decoder KeepModes := fun d => do
  let f ← asRecord fmt ["targets", "set_targets", "dependencies"] d
  let start : KeepModes := {}
  some
    { targets := ← f.withDefault "targets" (asName fmt KeepMode.ofName?) start.targets
      setTargets := ← f.withDefault "set_targets" (asName fmt KeepMode.ofName?) start.setTargets
      dependencies :=
        ← f.withDefault "dependencies" (asName fmt KeepMode.ofName?) start.dependencies }

def Permits.decode : Decoder Permits := fun d => do
  let f ← asRecord fmt ["downgrade", "old_version", "uninstall", "break", "protected"] d
  some
    { downgrade := ← f.withDefault "downgrade" asBool false
      oldVersion := ← f.withDefault "old_version" asBool false
      uninstall := ← f.withDefault "uninstall" asBool false
      breakage := ← f.withDefault "break" asBool false
      removeProtected := ← f.withDefault "protected" asBool false }

def OrderSection.decode : Decoder OrderSection := fun d => do
  let f ← asRecord fmt ["early", "late"] d
  some
    { early := ← f.withDefault "early" asStrings []
      late := ← f.withDefault "late" asStrings [] }

def DestinationsSection.decode : Decoder DestinationsSection := fun d => do
  let f ← asRecord fmt ["slash", "chroot", "binary", "via_binary"] d
  let start : DestinationsSection := {}
  some
    { slash := ← f.withDefault "slash" asString start.slash
      chroot := ← f.withDefault "chroot" asString start.chroot
      binary := ← f.withDefault "binary" asString start.binary
      viaBinary := ← f.withDefault "via_binary" asStrings [] }

def RequirementLists.decode (f : Fields) : Option RequirementLists := do
  some
    { preset := ← f.withDefault "preset" asStrings []
      without := ← f.withDefault "without" asStrings []
      reinstall := ← f.withDefault "with" asStrings []
      presume := ← f.withDefault "presume" asStrings []
      hide := ← f.withDefault "hide" asStrings []
      notUsable := ← f.withDefault "not_usable" asStrings []
      protectedIds := ← f.withDefault "protected" asStrings []
      removeIfDependent := ← f.withDefault "remove_if_dependent" asStrings []
      noRestartsFor := ← f.withDefault "no_restarts_for" asStrings []
      noDependenciesFrom := ← f.withDefault "no_dependencies_from" asStrings []
      take := ← f.withDefault "take" asStrings []
      ignore := ← f.withDefault "ignore" asStrings [] }

def Config.decode : Decoder Config := fun d => do
  let f ← asRecord fmt ["resolver", "use_existing", "permit", "order", "destinations", "preset",
    "without", "with", "presume", "hide", "not_usable", "protected", "remove_if_dependent",
    "no_restarts_for", "no_dependencies_from", "take", "ignore"] d
  some
    { resolver := ← f.withDefault "resolver" (ResolverSection.decode fmt) {}
      keep := ← f.withDefault "use_existing" (KeepModes.decode fmt) {}
      permits := ← f.withDefault "permit" (Permits.decode fmt) {}
      order := ← f.withDefault "order" (OrderSection.decode fmt) {}
      destinations := ← f.withDefault "destinations" (DestinationsSection.decode fmt) {}
      lists := ← RequirementLists.decode f }

end

namespace Config

def parse? (s : String) : Option Config := do decode .toml (.table (← Toml.read s))

def readList (key : String) (texts : List String) : Except ConfigFault (List Requirement) :=
  texts.mapM fun s => (Requirement.parse s).mapError (.requirement key)

/-- The preferences, up to the first requirement that cannot be read. -/
def preferences (c : Config) : Except ConfigFault Preferences := do
  let take ← readList "take" c.lists.take
  let ignore ← readList "ignore" c.lists.ignore
  let noDependenciesFrom ← readList "no_dependencies_from" c.lists.noDependenciesFrom
  .ok
    { targetDestination := c.resolver.targetDestination
      promoteBinaries := c.resolver.promoteBinaries
      keep := c.keep
      permits := c.permits
      rules :=
        { followInstalled := c.resolver.followInstalled
          followInstalledBuild := c.resolver.followInstalledBuild
          suggestions := c.resolver.suggestions
          recommendations := c.resolver.recommendations
          take, ignore, noDependenciesFrom }
      repositories := .ofList [(.slash, c.destinations.slash), (.chroot, c.destinations.chroot),
        (.binary, c.destinations.binary)]
      keepInstalled := ← readList "without" c.lists.without
      reinstall := ← readList "with" c.lists.reinstall
      presumed := ← readList "presume" c.lists.presume
      hidden := ← readList "hide" c.lists.hide
      notUsable := ← readList "not_usable" c.lists.notUsable
      protectedIds := ← readList "protected" c.lists.protectedIds
      removeIfDependent := ← readList "remove_if_dependent" c.lists.removeIfDependent
      noRestartsFor := ← readList "no_restarts_for" c.lists.noRestartsFor
      early := ← readList "order.early" c.order.early
      late := ← readList "order.late" c.order.late
      viaBinary := ← readList "destinations.via_binary" c.destinations.viaBinary }

def seeds (c : Config) : Except ConfigFault Seeds := do
  .ok { presets := ← readList "preset" c.lists.preset }

def checkNamed (key name : String) : Except ConfigFault Unit :=
  if (Text.trim name.toList).isEmpty then .error (.unnamedRepository key) else .ok ()

def validate (c : Config) : Except ConfigFault Unit := do
  let _ ← c.preferences
  let _ ← c.seeds
  checkNamed "destinations.slash" c.destinations.slash
  checkNamed "destinations.chroot" c.destinations.chroot
  checkNamed "destinations.binary" c.destinations.binary

end Config

def ResolverSection.toJson (s : ResolverSection) : Json :=
  .object [("max_restarts", .number s.maxRestarts), ("promote_binaries", .bool s.promoteBinaries),
    ("follow_installed_dependencies", .bool s.followInstalled),
    ("follow_installed_build_dependencies", .bool s.followInstalledBuild),
    ("suggestions", .string s.suggestions.name),
    ("recommendations", .string s.recommendations.name),
    ("target_destination", .string s.targetDestination.targetName)]

def KeepModes.toJson (k : KeepModes) : Json :=
  .object [("targets", .string k.targets.name), ("set_targets", .string k.setTargets.name),
    ("dependencies", .string k.dependencies.name)]

def Permits.toJson (p : Permits) : Json :=
  .object [("downgrade", .bool p.downgrade), ("old_version", .bool p.oldVersion),
    ("uninstall", .bool p.uninstall), ("break", .bool p.breakage),
    ("protected", .bool p.removeProtected)]

def Config.toJson (c : Config) : Json :=
  .object [("resolver", c.resolver.toJson), ("use_existing", c.keep.toJson),
    ("permit", c.permits.toJson),
    ("order", .object [("early", .strings c.order.early), ("late", .strings c.order.late)]),
    ("destinations", .object [("slash", .string c.destinations.slash),
      ("chroot", .string c.destinations.chroot), ("binary", .string c.destinations.binary),
      ("via_binary", .strings c.destinations.viaBinary)]),
    ("preset", .strings c.lists.preset), ("without", .strings c.lists.without),
    ("with", .strings c.lists.reinstall), ("presume", .strings c.lists.presume),
    ("hide", .strings c.lists.hide), ("not_usable", .strings c.lists.notUsable),
    ("protected", .strings c.lists.protectedIds),
    ("remove_if_dependent", .strings c.lists.removeIfDependent),
    ("no_restarts_for", .strings c.lists.noRestartsFor),
    ("no_dependencies_from", .strings c.lists.noDependenciesFrom),
    ("take", .strings c.lists.take), ("ignore", .strings c.lists.ignore)]

end PackagePlan
