import Stdx.Foundation.Decimal

/-!
# Semantic versions

`parse` and `Display` of `semver/semver.rs`.  Every offset the source computes stands
behind ASCII characters only, so offsets are counted in characters here.
-/

namespace Stdx.Semver

open Stdx.Foundation

inductive ParseError where
  | emptyInput
  | invalidCharacter
  | leadingZero
  | emptyIdentifier
  | invalidNumber
  | invalidFormat
  | trailingData
deriving DecidableEq, Repr

inductive Identifier where
  | numeric (n : Nat)
  | alpha (s : Text)
deriving DecidableEq, Repr

structure PreRelease where
  identifiers : List Identifier
deriving DecidableEq, Repr

structure BuildMetadata where
  raw : Text
deriving DecidableEq, Repr

structure Version where
  major : Nat
  minor : Nat
  patch : Nat
  preRelease : Option PreRelease
  build : Option BuildMetadata
deriving DecidableEq, Repr

def u64Max : Nat := 2 ^ 64 - 1

/-- `s.parse::<u64>()` -/
def parseU64 (s : Text) : Except ParseError Nat :=
  match parseUnsigned u64Max s with
  | some n => .ok n
  | none => .error .invalidNumber

/-- `c.is_ascii_alphanumeric() || c == '-'` -/
def isIdentifierChar (c : Char) : Bool := c.isAlphanum || c == '-'

def startsWithZero (s : Text) : Bool := s.head? == some '0'

def Identifier.parse (input : Text) : Except ParseError Identifier :=
  if input = [] then .error .emptyIdentifier
  else if ¬input.all isIdentifierChar then .error .invalidCharacter
  else if input.all Char.isDigit then
    if input.length > 1 ∧ startsWithZero input then .error .leadingZero
    else do
      let n ← parseU64 input
      .ok (.numeric n)
  else .ok (.alpha input)

/-- `iter().map(parse).collect::<Result<Vec<_>, _>>()` -/
def parseIdentifiers : List Text → Except ParseError (List Identifier)
  | [] => .ok []
  | part :: parts => do
      let identifier ← Identifier.parse part
      let identifiers ← parseIdentifiers parts
      .ok (identifier :: identifiers)

def PreRelease.parse (input : Text) : Except ParseError PreRelease :=
  if input = [] then .error .emptyIdentifier
  else do
    let identifiers ← parseIdentifiers (input.splitOn '.')
    .ok ⟨identifiers⟩

def checkBuildParts : List Text → Except ParseError Unit
  | [] => .ok ()
  | part :: parts =>
    if part = [] then .error .emptyIdentifier
    else if ¬part.all isIdentifierChar then .error .invalidCharacter
    else checkBuildParts parts

def BuildMetadata.parse (input : Text) : Except ParseError BuildMetadata :=
  if input = [] then .error .emptyIdentifier
  else do
    checkBuildParts (input.splitOn '.')
    .ok ⟨input⟩

def checkDigits (s : Text) : Except ParseError Nat :=
  if s = [] then .error .invalidCharacter
  else
    match s.findIdx fun c => !c.isDigit with
    | 0 => .error .invalidCharacter
    | pos + 1 => .ok (pos + 1)

def parseNumber (s : Text) : Except ParseError Nat :=
  if s.length > 1 ∧ startsWithZero s then .error .leadingZero else parseU64 s

def expectDot (s : Text) : Except ParseError Text :=
  match s with
  | '.' :: rest => .ok rest
  | _ => .error .invalidFormat

def takeNumber (s : Text) : Except ParseError (Nat × Text) := do
  let after ← checkDigits s
  let n ← parseNumber (s.take after)
  .ok (n, s.drop after)

def parsePreRelease (rest : Text) : Except ParseError (Option PreRelease × Text) :=
  match rest with
  | '-' :: r => do
      let stop := r.findIdx (· == '+')
      let preRelease ← PreRelease.parse (r.take stop)
      .ok (some preRelease, r.drop stop)
  | rest => .ok (none, rest)

def parseBuild (rest : Text) : Except ParseError (Option BuildMetadata) :=
  match rest with
  | '+' :: r => do
      let build ← BuildMetadata.parse r
      .ok (some build)
  | rest => if rest ≠ [] then .error .trailingData else .ok none

def parse (input : Text) : Except ParseError Version :=
  if input = [] then .error .emptyInput
  else do
    let (major, rest) ← takeNumber input
    let rest ← expectDot rest
    let (minor, rest) ← takeNumber rest
    let rest ← expectDot rest
    let (patch, rest) ← takeNumber rest
    let (preRelease, rest) ← parsePreRelease rest
    let build ← parseBuild rest
    .ok ⟨major, minor, patch, preRelease, build⟩

/-! ## Display -/

def Identifier.display : Identifier → Text
  | .numeric n => decimal n
  | .alpha s => s

def PreRelease.display (preRelease : PreRelease) : Text :=
  ['.'].intercalate (preRelease.identifiers.map Identifier.display)

def displayPreRelease : Option PreRelease → Text
  | none => []
  | some preRelease => '-' :: preRelease.display

def displayBuild : Option BuildMetadata → Text
  | none => []
  | some build => '+' :: build.raw

def Version.display (v : Version) : Text :=
  decimal v.major ++ '.' :: (decimal v.minor ++ '.' :: (decimal v.patch ++
    (displayPreRelease v.preRelease ++ displayBuild v.build)))

end Stdx.Semver
