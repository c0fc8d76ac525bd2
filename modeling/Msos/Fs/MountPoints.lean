import Msos.Library.Search

namespace Msos.Fs

open Msos.Library.Search

-- The text of an eul::filesystem::path, as native() returns it.
abbrev Path := List Char

-- The virtual functions of IFileSystem. Calls on a file system may change it,
-- so their results live in a monad.
structure IFileSystem (M : Type → Type) (File : Type) where
  mkdir : Path → Int → M Int
  remove : Path → M Int
  stat : Path → M Int
  get : Path → Int → M (Option File)
  create : Path → Int → M (Option File)
  list : Path → M (List File)
  name : List Char

-- ReadOnlyFileSystem: only the lookups of the derived class answer.
def readOnlyFileSystem {File : Type} (name : List Char) (get : Path → Option File)
    (list : Path → List File) : IFileSystem Id File where
  mkdir _ _ := (-1 : Int)
  remove _ := (-1 : Int)
  stat _ := (1 : Int)
  get path _ := get path
  create _ _ := none
  list path := list path
  name := name

structure MountPoint (FileSystem : Type*) where
  point : Path
  filesystem : FileSystem

namespace MountPoints

variable {FileSystem : Type*}

def mountFilesystem (points : List (MountPoint FileSystem)) (path : Path)
    (filesystem : FileSystem) : List (MountPoint FileSystem) :=
  points ++ [⟨path, filesystem⟩]

-- The loop body of get_best_mount_point.
def better (path best : Path) (point : MountPoint FileSystem) : Path :=
  match find point.point path with
  | some _ => if best.length < point.point.length then point.point else best
  | none => best

def bestMountPoint (points : List (MountPoint FileSystem)) (path : Path) : Path :=
  points.foldl (better path) []

def getBestMountPoint (points : List (MountPoint FileSystem)) (path : Path) :
    Option (MountPoint FileSystem) :=
  points.find? fun mp => mp.point = bestMountPoint points path

-- The mounts of kernel_process, in its order.
def kernelProcessMounts (ramfs romfs devfs apps : FileSystem) : List (MountPoint FileSystem) :=
  let points := mountFilesystem [] "/".toList ramfs
  let points := mountFilesystem points "/rom".toList romfs
  let points := mountFilesystem points "/dev".toList devfs
  mountFilesystem points "/bin".toList apps

end MountPoints

namespace Vfs

open MountPoints

section Forward

variable {FileSystem : Type*}

-- The shape shared by the operations of Vfs: find the mount point, then call
-- its file system with the path relative to it. `relative` stands for
-- eul::filesystem::path::lexically_relative.
def forward {Result : Type*} (relative : Path → Path → Path)
    (points : List (MountPoint FileSystem)) (path : Path) (failure : Result)
    (call : FileSystem → Path → Result) : Result :=
  match getBestMountPoint points path with
  | none => failure
  | some mp => call mp.filesystem (relative path mp.point)

def getChildFs (points : List (MountPoint FileSystem)) (path : Path) : Option FileSystem :=
  (getBestMountPoint points path).map MountPoint.filesystem

end Forward

section Operations

variable {M : Type → Type} [Monad M] {File : Type} (relative : Path → Path → Path)
  (points : List (MountPoint (IFileSystem M File))) (path : Path)

def mkdir (mode : Int) : M Int :=
  forward relative points path (pure (-1)) fun fs rel => fs.mkdir rel mode

def remove : M Int :=
  forward relative points path (pure (-1)) fun fs rel => fs.remove rel

def stat : M Int :=
  forward relative points path (pure (-1)) fun fs rel => fs.stat rel

def get (flags : Int) : M (Option File) :=
  forward relative points path (pure none) fun fs rel => fs.get rel flags

def create (flags : Int) : M (Option File) :=
  forward relative points path (pure none) fun fs rel => fs.create rel flags

def list : M (List File) :=
  forward relative points path (pure []) fun fs rel => fs.list rel

end Operations

end Vfs

end Msos.Fs
