import Sihd.Lib.Decimal
import Sihd.Lib.OrderedMap
import Sihd.Sys.File

/-!
# The SFTP server

The paths of a client are jailed in the root, each time that they are used. `OPEN` answers a
handle, which stands for a stream until it is closed.
-/

namespace Sihd.Ssh

open FileTree Sys

/-- The `SSH_FXF` flags. -/
structure OpenFlags where
  read : Bool
  write : Bool
  append : Bool
  trunc : Bool
  creat : Bool
  deriving DecidableEq

/-- The attributes that a request sets. -/
structure SftpAttributes where
  permissions : Option (BitVec 32)
  uidgid : Option (BitVec 32 × BitVec 32)
  size : Option (BitVec 64)
  deriving DecidableEq

/-- The `SSH_FX` codes. -/
inductive Status where
  | ok
  | eof
  | noSuchFile
  | permissionDenied
  | failure
  | badMessage
  | invalidHandle
  | fileAlreadyExists
  deriving DecidableEq

inductive Reply where
  | status (status : Status) (message : String)
  | handle (handle : List UInt8)
  | data (buf : List UInt8) (len : Int)
  deriving DecidableEq

/-- Requests on files. A path is empty where the message has none. `keep`, `ahead` and `wait`
are what the stream does with its buffers. -/
inductive FileRequest where
  | open (path : List UInt8) (flags : OpenFlags) (attrs : Option SftpAttributes)
  | read (handle : Option (List UInt8)) (offset len : Nat) (keep : Bool) (ahead : Nat)
  | write (handle : Option (List UInt8)) (offset : Nat) (data : Option (List UInt8)) (wait : Nat)
  | fsetstat (handle : Option (List UInt8)) (attrs : Option SftpAttributes)
  | close (handle : Option (List UInt8))

inductive Request where
  | file (request : FileRequest)
  | mkdir (path : List UInt8) (attrs : Option SftpAttributes)
  | rmdir (path : List UInt8)
  | remove (path : List UInt8)
  | rename (source target : List UInt8)
  | setstat (path : List UInt8) (attrs : Option SftpAttributes)
  | symlink (target link : List UInt8)

structure World where
  files : Files
  rootPath : List UInt8
  nextHandleId : BitVec 64
  handleToFile : OrderedMap (List UInt8) File

/-- `set_root_path`. -/
def setRootPath (path : List UInt8) : List UInt8 :=
  if path ≠ [] ∧ path.getLast? ≠ some Util.Str.slash then path ++ [Util.Str.slash] else path

/-- The string up to its first zero. -/
def cString (s : List UInt8) : List UInt8 := s.takeWhile (· ≠ 0)

/-- `sftp_handle_` and a number. -/
def handleName (id : Nat) : List UInt8 :=
  [115, 102, 116, 112, 95, 104, 97, 110, 100, 108, 101, 95] ++ decimal id

/-- The fold of the flags into a mode of `fopen`. -/
def openMode (flags : OpenFlags) : OpenMode :=
  if flags.read && flags.write then
    if flags.trunc then .wPlus
    else if flags.append then .aPlus
    else if flags.creat then .aPlus
    else .rPlus
  else if flags.write then
    if flags.append then .a
    else if flags.trunc || flags.creat then .w
    else .rPlus
  else .r

/-- What the use of a stream may touch. -/
def touchedFile (file : File) : List Touch :=
  match file.file with
  | none => []
  | some id => if file.stream.canWrite then [.content id] else []

/-- A change that is asked for or not. -/
def whenAsked {γ : Type} (f : Files) (asked : Option γ) (change : γ → Files.Outcome) :
    Files.Outcome :=
  match asked with
  | none => .ok (f, [])
  | some value => change value

/-- A world, a reply, and what was touched. -/
abbrev Response := World × Reply × List Touch

namespace World

/-- The server of a client that has sent nothing yet. -/
def start (files : Files) (rootPath : List UInt8) : World where
  files := files
  rootPath := setRootPath rootPath
  nextHandleId := 1
  handleToFile := .empty

def resolvePath (w : World) (path : List UInt8) : List UInt8 :=
  Path.jail w.files.realpath w.rootPath path

/-- The reply of a call that failed: `special` is the error with a code of its own. -/
def replyError (w : World) (errno special : Errno) (code : Status) : Response :=
  (w, .status (if errno = special then code else .permissionDenied) "", [])

/-- The reply of a call on paths. -/
def replyOutcome (w : World) (outcome : Files.Outcome) (special : Errno) (code : Status) :
    Response :=
  match outcome with
  | .error errno => w.replyError errno special code
  | .ok (files, touched) => ({ w with files := files }, .status .ok "", touched)

def handleMkdir (w : World) (path : List UInt8) (attrs : Option SftpAttributes) : Response :=
  let mode := (attrs.bind SftpAttributes.permissions).getD 0o755#32
  w.replyOutcome (w.files.makeDirectory (w.resolvePath path) mode) .entryExists
    .fileAlreadyExists

def handleRmdir (w : World) (path : List UInt8) : Response :=
  w.replyOutcome (w.files.rmdir (w.resolvePath path)) .noEntry .noSuchFile

def handleRemove (w : World) (path : List UInt8) : Response :=
  w.replyOutcome (w.files.remove (w.resolvePath path)) .noEntry .noSuchFile

def handleRename (w : World) (source target : List UInt8) : Response :=
  w.replyOutcome (w.files.rename (w.resolvePath source) (w.resolvePath target)) .noEntry
    .noSuchFile

/-- The target of a link is taken as it is. -/
def handleSymlink (w : World) (target link : List UInt8) : Response :=
  w.replyOutcome (w.files.symlink target (w.resolvePath link)) .entryExists .fileAlreadyExists

/-- Permissions, owner and size are set in this order, up to the first that fails. -/
def handleSetstat (w : World) (path : List UInt8) (attrs : Option SftpAttributes) : Response :=
  match attrs with
  | none => (w, .status .badMessage "", [])
  | some attrs =>
      let resolved := w.resolvePath path
      match whenAsked w.files attrs.permissions (w.files.chmod resolved) with
      | .error _ => (w, .status .permissionDenied "", [])
      | .ok (files, touched) =>
          match whenAsked files attrs.uidgid fun o => files.chown resolved o.1 o.2 with
          | .error _ => ({ w with files := files }, .status .permissionDenied "", touched)
          | .ok (files, touched') =>
              let touched := touched ++ touched'
              match whenAsked files attrs.size (files.truncate resolved) with
              | .error _ => ({ w with files := files }, .status .permissionDenied "", touched)
              | .ok (files, touched') =>
                  ({ w with files := files }, .status .ok "", touched ++ touched')

/-- The result of `permission_set` is not looked at. A handle that is there keeps its
stream. -/
def handleOpen (w : World) (path : List UInt8) (flags : OpenFlags)
    (attrs : Option SftpAttributes) : Response :=
  let resolved := w.resolvePath path
  match File.openFile w.files resolved (openMode flags) with
  | .error errno => w.replyError errno .noEntry .noSuchFile
  | .ok (files, touched, file) =>
      let asked := if flags.creat then attrs.bind SftpAttributes.permissions else none
      let (files, touched') := (whenAsked files asked (files.chmod resolved)).toOption.getD
        (files, [])
      let handle := handleName w.nextHandleId.toNat
      let handleToFile := if (w.handleToFile.find handle).isSome then w.handleToFile
        else w.handleToFile.set handle file
      ({ w with
        files := files
        nextHandleId := w.nextHandleId + 1
        handleToFile := handleToFile }, .handle handle, touched ++ touched')

/-- The stream of a handle. -/
def findFile (w : World) (handle : Option (List UInt8)) : Option (List UInt8 × File) :=
  handle.bind fun handle =>
    (w.handleToFile.find (cString handle)).map fun file => (cString handle, file)

def setFile (w : World) (files : Files) (handle : List UInt8) (file : File) : World :=
  { w with files := files, handleToFile := w.handleToFile.set handle file }

/-- The number of bytes is given as an `int`. -/
def handleRead (w : World) (handle : Option (List UInt8)) (offset len : Nat) (keep : Bool)
    (ahead : Nat) : Response :=
  match w.findFile handle with
  | none => (w, .status .invalidHandle "", [])
  | some (handle, file) =>
      match file.seekBegin w.files offset keep with
      | none => (w, .status .failure "", [])
      | some (files, file) =>
          let (file, n) := file.read files len ahead
          let reply := match n with
            | none => .status .failure ""
            | some [] => .status .eof ""
            | some buf => .data buf (BitVec.ofNat 32 buf.length).toInt
          (w.setFile files handle file, reply, touchedFile file)

def handleWrite (w : World) (handle : Option (List UInt8)) (offset : Nat)
    (data : Option (List UInt8)) (wait : Nat) : Response :=
  match w.findFile handle with
  | none => (w, .status .invalidHandle "", [])
  | some (handle, file) =>
      match data with
      | none => (w, .status .badMessage "No data in write request", [])
      | some data =>
          match file.seekBegin w.files offset false with
          | none => (w, .status .failure "", [])
          | some (files, file) =>
              let (files, file, n) := file.write files data wait
              let reply := if n = some data.length then Reply.status .ok ""
                else .status .failure ""
              (w.setFile files handle file, reply, touchedFile file)

/-- A handle that is not there is closed, too. -/
def handleClose (w : World) (handle : Option (List UInt8)) : Response :=
  match handle with
  | none => (w, .status .invalidHandle "", [])
  | some handle =>
      match w.handleToFile.find (cString handle) with
      | none => (w, .status .ok "", [])
      | some file =>
          ({ w with
            files := file.flush w.files
            handleToFile := w.handleToFile.erase (cString handle) }, .status .ok "",
            touchedFile file)

/-- `FSETSTAT` goes to `handle_setstat`, with no path. -/
def handleFile (w : World) : FileRequest → Response
  | .open path flags attrs => w.handleOpen path flags attrs
  | .read handle offset len keep ahead => w.handleRead handle offset len keep ahead
  | .write handle offset data wait => w.handleWrite handle offset data wait
  | .fsetstat _ attrs => w.handleSetstat [] attrs
  | .close handle => w.handleClose handle

def handle (w : World) : Request → Response
  | .file request => w.handleFile request
  | .mkdir path attrs => w.handleMkdir path attrs
  | .rmdir path => w.handleRmdir path
  | .remove path => w.handleRemove path
  | .rename source target => w.handleRename source target
  | .setstat path attrs => w.handleSetstat path attrs
  | .symlink target link => w.handleSymlink target link

def step (w : World) (request : Request) : Option World := some (w.handle request).1

/-- `on_close`: the streams are closed, in the order of their handles. -/
def onClose (w : World) : Files :=
  w.handleToFile.entries.foldl (fun files e => e.2.flush files) w.files

end World

end Sihd.Ssh
