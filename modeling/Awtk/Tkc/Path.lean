import Mathlib
import Awtk.Lib.Loop
import Awtk.Tkc.CStr
import Awtk.Tkc.Types

/-!
# Paths

`path_normalize` works on the output as it is written: for `..` it looks back from the end
for the separator in front of the last name.  The output is a buffer of `size` bytes, and
a write outside of it is a fault.
-/

namespace Awtk.Path

/-- The systems, by their `TK_PATH_SEP`. -/
inductive System where
  | unix
  | windows
  deriving DecidableEq, Repr

def System.pathSep : System → UInt8
  | .unix => '/'
  | .windows => '\\'

def isPathSep (c : UInt8) : Bool := c = '/' || c = '\\'

/-- The character at an index of a buffer. -/
def charAt (buff : List UInt8) (i : Nat) : UInt8 := buff.getD i 0

/-- The C string in a buffer. -/
def cstr (buff : List UInt8) : Str := buff.takeWhile (· ≠ 0)

/-! ## `path_normalize` -/

section Normalize

variable (sys : System) (size : Nat)

/-- The loop of `path_up` that looks for a separator. -/
def scanBack (buff : List UInt8) : Nat → Nat
  | 0 => 0
  | p + 1 => if isPathSep (charAt buff (p + 1)) then p + 1 else scanBack buff p

/-- What `path_up` does behind the last separator, from an index. -/
def pathUpFrom (buff : List UInt8) (p : Nat) : List UInt8 × Nat :=
  let p := scanBack buff p
  if p = 0 ∧ ¬ isPathSep (charAt buff 0) then (buff.set 0 0, 0)
  else ((buff.set p sys.pathSep).take (p + 1) ++ List.replicate (size - p - 1) 0, p + 1)

/-- `path_up`, with the index behind the path that is left.  Where all of the path is one
separator, the pointer ends in front of the buffer and is written to. -/
def pathUp (buff : List UInt8) : Option (List UInt8 × Nat) :=
  let len := (cstr buff).length
  if min len size = 0 then some (buff, 0)
  else
    match len - 1 with
    | 0 => if isPathSep (charAt buff 0) then none else some (pathUpFrom sys size buff 0)
    | p + 1 =>
      if isPathSep (charAt buff (p + 1)) then some (pathUpFrom sys size (buff.set (p + 1) 0) p)
      else some (pathUpFrom sys size buff (p + 1))

/-- The pointers of `path_normalize`, as what is left of the path and an index of the
result, and the result. -/
structure Norm where
  s : Str
  d : Nat
  result : List UInt8

/-- `*d++ = c`. -/
def Norm.put (st : Norm) (c : UInt8) : Norm :=
  { st with result := st.result.set st.d c, d := st.d + 1 }

/-- A turn of the loop of `path_normalize`. -/
def pathNormalizeTurn (st : Norm) : Turn Norm (Ret × List UInt8) :=
  if st.d < size then
    match st.s with
    | [] => .done (.ok, st.result)
    | c :: rest =>
      if isPathSep c then
        if rest = [('.' : UInt8)] then .next { st with s := [] }
        else
          let st := if st.d = 0 ∨ ¬ isPathSep (charAt st.result (st.d - 1)) then
            st.put sys.pathSep else st
          .next { st with s := rest.dropWhile isPathSep }
      else if c = '.' then
        match rest with
        | [] => .next { st.put c with s := rest }
        | c1 :: rest1 =>
          if isPathSep c1 then .next { st with s := rest1 }
          else if c1 = '.' then
            if (rest1.head?.map isPathSep).getD true then
              match pathUp sys size st.result with
              | some (result, d) => .next ⟨rest1.drop 1, d, result⟩
              | none => .fault
            else .done (.fail, st.result)
          else .next { st.put c with s := rest }
      else .next { st.put c with s := rest }
  else .done (.ok, st.result)

/-- `path_normalize`.  Each turn reads at least one character. -/
def pathNormalize (path : Str) : Outcome (Ret × List UInt8) :=
  Loop.run (pathNormalizeTurn sys size) (path.length + 1) ⟨path, 0, List.replicate size 0⟩

end Normalize

/-! ## Absolute paths -/

def pathIsAbs (path : Str) : Bool := path[0]? = some ('/' : UInt8) || path[1]? = some (':' : UInt8)

section Abs

variable (sys : System) (maxPath : Nat)

/-- The arguments of `path_build` are added to what was written.  The separators do not count. -/
def pathBuildFrom : Str → Nat → List Str → Option Str
  | out, _, [] => some out
  | out, avail, p :: ps =>
    if p.length + 1 < avail then
      let out := if out ≠ [] ∧ out.getLast? ≠ some sys.pathSep then out ++ [sys.pathSep] else out
      pathBuildFrom (out ++ p) (avail - p.length) ps
    else none

def pathBuild (size : Nat) (args : List Str) : Option Str := pathBuildFrom sys [] size args

/-- `path_abs`, in a directory that `path_cwd` may know. -/
def pathAbs (cwd : Option Str) (path : Str) (size : Nat) : Option Str :=
  if path.length < size then
    if pathIsAbs path then some path else cwd.bind fun cwd => pathBuild sys size [cwd, path]
  else none

/-- What a call of `path_normalize` leaves for its caller. -/
def normalizedFor (size : Nat) (path : Str) : Outcome (Option Str) :=
  match pathNormalize sys size path with
  | .result (.ok, result) => .result (some (cstr result))
  | .result _ => .result none
  | .fault => .fault
  | .running => .running

/-- `path_abs_normalize` in a buffer of `MAX_PATH` bytes. -/
def pathAbsNormalize (cwd : Option Str) (filename : Str) : Outcome (Option Str) :=
  match pathAbs sys cwd filename maxPath with
  | some path => normalizedFor sys maxPath path
  | none => .result none

def pathAbsNormalizeWithRoot (cwd : Option Str) (root relFilename : Str) : Outcome (Option Str) :=
  match pathAbsNormalize sys maxPath cwd root with
  | .result (some absRoot) =>
    match pathBuild sys maxPath [absRoot, relFilename] with
    | some path =>
      match normalizedFor sys maxPath path with
      | .result (some filename) =>
        if absRoot.isPrefixOf filename then .result (some filename) else .result none
      | r => r
    | none => .result none
  | r => r

end Abs

end Awtk.Path
