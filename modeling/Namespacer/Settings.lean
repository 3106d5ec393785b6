import Namespacer.Replacement

/-!
# Settings

What a migration is told besides the directory to work on, and the file types
that it works on.
-/

namespace Namespacer

/-- A language whose files are worked on. -/
structure Language where
  name : String
  extensions : List String
deriving DecidableEq, Repr

/-- The language that sources and templates are written in. -/
def php : Language := ⟨"php", [".php", ".phtml"]⟩

/-- The language of files with a suffix, in any letter case. -/
def languageFor? (suffix : Text) : Option Language :=
  if php.extensions.any fun known => known.toList == Text.lower suffix then some php else none

/-- The suffixes of the files that are worked on by default. -/
def defaultExtensions : List Text := php.extensions.map String.toList

/-- The encoding of source files by default. -/
def defaultEncoding : Text := "iso-8859-1"

/-- The language version that a manifest requires by default. -/
def defaultConstraint : Text := ">=8.0"

/-- The settings of a migration. -/
structure Settings where
  rootNamespace : Text
  encoding : Text := defaultEncoding
  extensions : List Text := defaultExtensions
  exclude : List Text := []
  replacements : List Replacement := []
  phpConstraint : Text := defaultConstraint
  composerInstall : Bool := false
  fast : Bool := false
deriving DecidableEq, Repr

/-- Settings are usable if the root namespace is not empty. -/
def Settings.isUsable (settings : Settings) : Bool :=
  !(normalizeNamespace settings.rootNamespace).isEmpty

/-- The message for an empty root namespace. -/
def emptyNamespaceMessage : Text := "root namespace must not be empty"

end Namespacer
