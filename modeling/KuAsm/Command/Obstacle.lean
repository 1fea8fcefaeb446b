import KuAsm.Text.Quoted

/-!
# What stands in the way of writing a file

The system refuses to write a file for a reason that has a number and a wording.  An `Obstacle` is
such a reason, and `Obstacle.text` is how the command tells it.
-/

namespace KuAsm

/-- Why a file cannot be written. -/
inductive Obstacle where
  /-- A part of the path does not exist. -/
  | notFound
  /-- The user may not write there. -/
  | permissionDenied
  /-- A part of the path that has to be a directory is none. -/
  | notADirectory
  /-- The path leads to a directory. -/
  | isADirectory
  /-- There is no room left. -/
  | storageFull
  /-- Nothing can be written in this part of the file system. -/
  | readOnly
  /-- The path or a part of it is too long. -/
  | nameTooLong
  /-- Another reason, with its number and wording. -/
  | other (code : Nat) (message : String)
deriving DecidableEq, Repr

namespace Obstacle

/-- The number of the reason. -/
def code : Obstacle → Nat
  | notFound => 2
  | permissionDenied => 13
  | notADirectory => 20
  | isADirectory => 21
  | storageFull => 28
  | readOnly => 30
  | nameTooLong => 36
  | other n _ => n

/-- The class of the reason. -/
def kind : Obstacle → String
  | notFound => "NotFound"
  | permissionDenied => "PermissionDenied"
  | notADirectory => "NotADirectory"
  | isADirectory => "IsADirectory"
  | storageFull => "StorageFull"
  | readOnly => "ReadOnlyFilesystem"
  | nameTooLong => "InvalidFilename"
  | other .. => "Uncategorized"

/-- The wording of the reason. -/
def message : Obstacle → String
  | notFound => "No such file or directory"
  | permissionDenied => "Permission denied"
  | notADirectory => "Not a directory"
  | isADirectory => "Is a directory"
  | storageFull => "No space left on device"
  | readOnly => "Read-only file system"
  | nameTooLong => "File name too long"
  | other _ m => m

/-- The obstacle of a number; `message` is the wording of a number that has no name here. -/
def ofCode (code : Nat) (message : String) : Obstacle :=
  match [notFound, permissionDenied, notADirectory, isADirectory, storageFull, readOnly,
      nameTooLong].find? (·.code = code) with
  | some o => o
  | none => other code message

/-- How the command tells the obstacle. -/
def text (o : Obstacle) : String :=
  "Os \x7b code: " ++ toString o.code ++ ", kind: " ++ o.kind ++ ", message: " ++
    Text.quoted o.message ++ " \x7d"

end Obstacle

end KuAsm
