import Kerneloid.Vfs.Bytes

/-! # The commands `cp` and `mv`

`cmd_cp` and `cmd_mv` of `shell.c` with the functions they use. A path is resolved against the
working directory, and the argument itself is tried if the resolved path cannot be opened. A string
in a buffer of 256 bytes is its first 255 characters. -/

namespace Kerneloid.Shell.Commands

open UnnamedFS.Types Vfs.Types Vfs.Path Vfs.Ops Vfs.Bytes

/-- The VFS, the working directory of `g_shell_current` if that is set, and the text printed. -/
structure ShellState where
  vfs : ByteVfs
  cwd : Option CStr
  out : CStr

/-- The state after calls that store nothing on the device. -/
def ShellState.put (s : ShellState) (v : VState) : ShellState :=
  { s with vfs := onDevice s.vfs.dev v }

def ShellState.print (s : ShellState) (text : CStr) : ShellState := { s with out := s.out ++ text }

def ShellState.println (s : ShellState) (text : CStr) : ShellState := s.print (text ++ [10])

/-- `shell_strncpy` into a buffer of `n` bytes. -/
def shellStrncpy (src : CStr) (n : ℕ) : CStr := (chars src).take (n - 1)

/-- `shell_strncat` in a buffer of `n` bytes. -/
def shellStrncat (dest src : CStr) (n : ℕ) : CStr := dest ++ (chars src).take (n - 1 - dest.length)

/-- `resolve_path` into a buffer of 256 bytes. -/
def resolvePath (cwd path : CStr) : CStr :=
  if path.head? = some slash then shellStrncpy path 256
  else
    let out := shellStrncpy cwd 256
    let out :=
      if out ≠ [] ∧ out.getLast? ≠ some slash ∧ out.length + 1 < 256 then out ++ [slash] else out
    shellStrncat out path 256

def ShellState.path (s : ShellState) (arg : CStr) : CStr :=
  match s.cwd with
  | some cwd => resolvePath cwd arg
  | none => shellStrncpy arg 256

/-- `vfs_open` of the path, else of the argument: the descriptor, and the name kept for messages. -/
def openEither (v : VState) (path arg : CStr) (mode : ℤ) : VState × ℤ × CStr :=
  match vfsOpen v path mode with
  | (v, fd) =>
    if fd < 0 then
      match vfsOpen v arg mode with
      | (v, fd) => (v, fd, if fd < 0 then path else shellStrncpy arg 256)
    else (v, fd, path)

/-- `cmd_cp` with two arguments. -/
def copyFile (s : ShellState) (a b : CStr) : ShellState × ℤ :=
  match openEither s.vfs.vfs (s.path a) a 1 with
  | (v, fds, src) =>
    if fds < 0 then ((s.put v).println (cstr "cp: cannot open src " ++ src), 1)
    else
      match vfsRead v fds 512 with
      | (v, n, bytes) =>
        let v := (vfsClose v fds).1
        if n < 0 then ((s.put v).println (cstr "cp: read failed"), 1)
        else
          match openEither v (s.path b) b 3 with
          | (v, fdd, dst) =>
            if fdd < 0 then ((s.put v).println (cstr "cp: cannot create dst " ++ dst), 1)
            else
              let v := (vfsLseek v fdd 0 0).1
              match vfsWriteBytes (s.put v).vfs fdd (fun j => bytes.getD j 0) n.toNat with
              | (w, r) =>
                let s := { s with vfs := onDevice w.dev (vfsClose w.vfs fdd).1 }
                if r < 0 then (s.println (cstr "cp: write failed"), 1)
                else
                  (s.println (cstr "Copied " ++ cstr (toString n.toNat) ++ cstr " bytes " ++ src ++
                    cstr " -> " ++ dst), 0)

/-- `cmd_cp`; `argc` is the length of `argv`. -/
def cmdCp (s : ShellState) : List CStr → ShellState × ℤ
  | _ :: a :: b :: _ => copyFile s a b
  | _ => (s.println (cstr "Usage: cp <src> <dst>"), 1)

def ShellState.unlink (s : ShellState) (path : CStr) : ShellState × ℤ :=
  ({ s with vfs := s.vfs.step (.unlink path) }, (vfsUnlink s.vfs.vfs path).2)

/-- The end of `cmd_mv`, after the copy. -/
def removeSource (s : ShellState) (a : CStr) : ShellState :=
  match s.unlink (s.path a) with
  | (t, rc) =>
    if rc = 0 then t.println (cstr "Moved " ++ s.path a)
    else
      match t.unlink a with
      | (t, rc) =>
        if rc = 0 then t.println (cstr "Moved " ++ a)
        else
          t.println (cstr "mv: warning - copy succeeded but unlink failed for " ++ s.path a)

def cmdMv (s : ShellState) : List CStr → ShellState × ℤ
  | argv@(_ :: a :: _ :: _) =>
    match cmdCp s argv with
    | (s, r) => if r ≠ 0 then (s, r) else (removeSource s a, 0)
  | _ => (s.println (cstr "Usage: mv <src> <dst>"), 1)

end Kerneloid.Shell.Commands
