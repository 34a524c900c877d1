import JsonnetNav.Position
import JsonnetNav.Text.Bytes
import JsonnetNav.Text.Escape

/-! # File paths

A path is a root and the parts below it. Empty parts and parts that are one dot are
left out, and two dots stay. A path is turned into a uri and back by escaping its bytes.
-/

namespace JsonnetNav

/-- The code point between the parts of a path. -/
def CodePoint.separator : CodePoint := .ofChar '/'

namespace Text

/-- The stretches of a text between its separators. -/
def pieces : Text → List Text
  | [] => [[]]
  | p :: rest =>
    if p = .separator then [] :: pieces rest
    else match pieces rest with
      | piece :: others => (p :: piece) :: others
      | [] => [[p]]

end Text

/-- What a path starts with: nothing, one slash or two. -/
inductive PathRoot where
  | none | slash | doubleSlash
  deriving Repr, DecidableEq

structure FilePath where
  root : PathRoot
  parts : List Text
  deriving Repr, DecidableEq

namespace PathRoot

def text : PathRoot → Text
  | none => []
  | slash => [.separator]
  | doubleSlash => [.separator, .separator]

/-- The root of a path in a text. More than two slashes count as one. -/
def ofText (t : Text) : PathRoot :=
  match (t.takeWhile (· = .separator)).length with
  | 0 => none
  | 2 => doubleSlash
  | _ => slash

end PathRoot

namespace FilePath

/-- The part that stays where it is. -/
def here : Text := .ofString "."

/-- The part that leads to the folder around. -/
def up : Text := .ofString ".."

def ofText (t : Text) : FilePath :=
  { root := .ofText t
    parts := t.pieces.filter fun part => part ≠ [] ∧ part ≠ here }

def ofString (s : String) : FilePath :=
  ofText (.ofString s)

def isAbsolute (p : FilePath) : Bool :=
  p.root ≠ .none

def text (p : FilePath) : Text :=
  if p.root = .none ∧ p.parts.isEmpty then here
  else p.root.text ++ List.intercalate [.separator] p.parts

/-- The path as it is shown to a reader. -/
def render (p : FilePath) : String :=
  p.text.display

/-- The path without its last part. -/
def parent (p : FilePath) : FilePath :=
  { p with parts := p.parts.dropLast }

/-- The last part. -/
def name (p : FilePath) : Text :=
  p.parts.getLast?.getD []

/-- A part below the path. -/
def child (p : FilePath) (part : Text) : FilePath :=
  { p with parts := p.parts ++ [part] }

/-- The second path seen from the first. -/
def join (p q : FilePath) : FilePath :=
  if q.isAbsolute then q else { p with parts := p.parts ++ q.parts }

/-- The rest of a path below a folder around it. -/
def relativeTo (p folder : FilePath) : FilePath :=
  { root := .none, parts := p.parts.drop folder.parts.length }

/-- Parts with every two dots taken back together with the part before them, the last
    part first. -/
def settle : List Text → List Text → List Text
  | settled, [] => settled
  | settled, part :: parts =>
    if part = up then settle settled.tail parts else settle (part :: settled) parts

/-- The path with all two dots worked out. -/
def normalized (p : FilePath) : FilePath :=
  { p with parts := (settle [] p.parts).reverse }

end FilePath

/-! ## Paths and uris -/

/-- Why a path has no uri, or a uri has no path. -/
inductive UriError where
  /-- The uri is not that of a file. -/
  | notAFile
  /-- The path does not start at a root. -/
  | relativePath
  /-- The path has a code point that stands for no bytes. -/
  | unencodable
  deriving Repr, DecidableEq

namespace FilePath

/-- The bytes that stand for themselves in a uri. -/
def isPlain (b : UInt8) : Bool :=
  let c := Char.ofNat b.toNat
  c.isAlphanum || c = '_' || c = '.' || c = '-' || c = '~' || c = '/'

/-- One hexadecimal digit in upper case. -/
def hexDigit (n : Nat) : Char :=
  (Nat.digitChar n).toUpper

/-- The text of a byte in a uri. -/
def escapeByte (b : UInt8) : List Char :=
  if isPlain b then [Char.ofNat b.toNat]
  else ['%', hexDigit (b.toNat / 16), hexDigit (b.toNat % 16)]

/-- The bytes of a text with the escapes undone. -/
def unescape : List UInt8 → List UInt8
  | [] => []
  | 37 :: high :: low :: rest =>
    match Text.Escape.hexValue? high, Text.Escape.hexValue? low with
    | some h, some l => UInt8.ofNat (16 * h + l) :: unescape rest
    | _, _ => 37 :: unescape (high :: low :: rest)
  | b :: rest => b :: unescape rest

/-- What the uri of a file starts with. -/
def scheme : String := "file://"

/-- The uri is that of a file. -/
def isFileUri (uri : Uri) : Bool :=
  scheme.toList.isPrefixOf uri.toList

/-- The uri of a path. -/
def toUri (p : FilePath) : Except UriError Uri :=
  if p.isAbsolute then
    match p.text.bytes? with
    | some bytes => return scheme ++ String.ofList (bytes.flatMap escapeByte)
    | none => throw .unencodable
  else throw .relativePath

/-- The path of a uri. -/
def ofUri (uri : Uri) : Except UriError FilePath :=
  if isFileUri uri then
    let bytes := (uri.toList.drop scheme.length).flatMap String.utf8EncodeChar
    return ofText (.ofBytes (unescape bytes))
  else throw .notAFile

end FilePath

end JsonnetNav
