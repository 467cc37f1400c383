/-
The program (`main.cpp`). A run takes its arguments, the cluster it connects to and the files of the local machine; it
leaves an exit code and what it has printed, or dies. The two commands that start a server do not return once it listens.
-/
import MiniHadoop.Mapred.WordCount
import MiniHadoop.Ndfs.ClientWire
import MiniHadoop.Ndfs.Persistence

namespace MiniHadoop.Shell

open Text Wire

/-! ## Arguments -/

/-- `dfs <op> [args]`; an operation that is not known, or lacks arguments, does nothing. -/
inductive DfsOp where
  | put (localPath remotePath : Bytes)
  | get (remotePath localPath : Bytes)
  | ls (path : Bytes)
  | rm (path : Bytes)
  | mkdir (path : Bytes)
  | nothing
  deriving DecidableEq, Repr

/-- What the arguments ask for. -/
inductive Command where
  | print (text : Bytes)
  | refuse (message : Bytes)
  | namenode (port : Option Bytes)
  | datanode (nnHost nnPort bsPort : Option Bytes)
  | dfs (op : DfsOp)
  | wordcount (inputPath outputPath : Bytes)
  deriving DecidableEq, Repr

def usage : Bytes :=
  bytes "Usage: mini-hadoop <command> [args...]\n" ++ bytes "Commands:\n" ++
  bytes "  version           Show version\n" ++
  bytes "  namenode [port]   Start NameNode (default port 9000)\n" ++
  bytes "  datanode [nn_host] [nn_port] [bs_port]\n" ++
  bytes "  dfs <op> [args]   NDFS client operations\n" ++
  bytes "  wordcount <input> <output>  Run WordCount\n"

/-- The operation of `dfs`, by its name and the number of the arguments behind it. -/
def DfsOp.parse (op : Bytes) (args : List Bytes) : DfsOp :=
  if op = bytes "put" ∧ 2 ≤ args.length then .put (args.getD 0 []) (args.getD 1 [])
  else if op = bytes "get" ∧ 2 ≤ args.length then .get (args.getD 0 []) (args.getD 1 [])
  else if op = bytes "ls" then .ls (args.getD 0 (bytes "/"))
  else if op = bytes "rm" ∧ 1 ≤ args.length then .rm (args.getD 0 [])
  else if op = bytes "mkdir" ∧ 1 ≤ args.length then .mkdir (args.getD 0 [])
  else .nothing

/-- The command, without the name of the program. -/
def Command.parse : List Bytes → Command
  | [] => .refuse usage
  | cmd :: args =>
    if cmd = bytes "version" then .print (bytes "mini-hadoop version 0.1.0\n")
    else if cmd = bytes "namenode" then .namenode args[0]?
    else if cmd = bytes "datanode" then .datanode args[0]? args[1]? args[2]?
    else if cmd = bytes "dfs" then
      match args with
      | [] => .refuse (bytes "Usage: mini-hadoop dfs <put|get|ls|rm|mkdir> [args]\n")
      | op :: args => .dfs (DfsOp.parse op args)
    else if cmd = bytes "wordcount" then
      match args with
      | inputPath :: outputPath :: _ => .wordcount inputPath outputPath
      | _ => .refuse (bytes "Usage: mini-hadoop wordcount <input> <output>\n")
    else .refuse (bytes "Unknown command: " ++ cmd ++ bytes "\n")

/-! ## Runs -/

/-- What is there between the runs: the cluster, and the files of the local machine. -/
structure World where
  cluster : Ndfs.Cluster
  files : HashMap Bytes Bytes

/-- The exit code, and what was printed to `std::cout` and to `std::cerr`. -/
structure Exit where
  code : Nat := 0
  out : Bytes := []
  err : Bytes := []
  deriving DecidableEq, Repr

/-- What ends a run without an exit code. -/
inductive Death where
  /-- An exception of a message or of a buffer, which nothing catches. -/
  | throws (e : Throw)
  /-- One of `std::stoi` or `std::stoll`. -/
  | converts (e : StollError)
  /-- One of `create_directories`. -/
  | noDirectory
  /-- A thread that can still be joined when its object goes. -/
  | joinable
  deriving DecidableEq, Repr

/-- What a run meets: whether the NameNode can be reached, how a call to it goes, the turns of a write, the attempts to
read the blocks of a file, and the local file that is written; for a server, whether it can listen, whether its directory
is there or can be made, and how the start of a DataNode goes. -/
structure Env where
  now : Int64
  connects : Bool
  rpc : Ndfs.RpcOutcome
  turns : Nat → Ndfs.ChunkEnv
  attempt : Nat → Nat → Ndfs.ReadOutcome
  localFile : Ndfs.FileOutcome
  hash : Bytes → UInt64
  sort : Mapred.KeySort
  listens : Bool
  directory : Bool
  boot : Ndfs.Boot

/-- `kDefaultBlockSize`. -/
def kDefaultBlockSize : Int64 := 64 * 1024 * 1024

/-- A port among the arguments, or the one that is taken without it. -/
def portArg (arg : Option Bytes) (default : Int32) : Except Death Int32 :=
  match arg with
  | none => .ok default
  | some text => (stoi text).mapError .converts

namespace World

/-- `dfs put`. -/
def put (w : World) (env : Env) (localPath remotePath : Bytes) : Option (Except Throw (World × Exit)) :=
  match w.files.lookup localPath with
  | none => some (.ok (w, { code := 1, err := bytes "Cannot open: " ++ localPath ++ bytes "\n" }))
  | some content =>
    match readVector content.length content with
    | none => some (.error .lengthError)
    | some data =>
      (Ndfs.DfsClient.writeFile env.now w.cluster kDefaultBlockSize remotePath data true env.turns).map fun result => do
        let (cluster, st) ← result
        if st.code = .kOk then
          return ({ w with cluster },
            { out := bytes "Written " ++ decimal data.1.length ++ bytes " bytes to " ++ remotePath ++ bytes "\n" })
        else return ({ w with cluster }, { code := 1, err := bytes "Write failed: " ++ st.msg ++ bytes "\n" })

/-- `dfs get`; whether the local file could be written is not looked at. -/
def get (w : World) (env : Env) (remotePath localPath : Bytes) : Except Throw (World × Exit) := do
  let (st, data) ← Ndfs.DfsClient.readFile w.cluster env.now env.rpc env.attempt remotePath []
  if st.code = .kOk then
    let files := match env.localFile.content data with
      | none => w.files
      | some content => w.files.insert localPath content
    return ({ w with files },
      { out := bytes "Read " ++ decimal data.length ++ bytes " bytes from " ++ remotePath ++ bytes "\n" })
  else return (w, { code := 1, err := bytes "Read failed: " ++ st.msg ++ bytes "\n" })

/-- `dfs ls`. -/
def ls (w : World) (env : Env) (path : Bytes) : Except Throw (World × Exit) := do
  let (cluster, list) ← Ndfs.DfsClient.list w.cluster env.now env.rpc path
  return ({ w with cluster }, { out := list.flatMap (· ++ bytes "\n") })

/-- `dfs rm`; a failure shows in what is printed only. -/
def rm (w : World) (env : Env) (path : Bytes) : Except Throw (World × Exit) := do
  let (cluster, st) ← Ndfs.DfsClient.delete w.cluster env.now env.rpc path
  if st.code = .kOk then return ({ w with cluster }, { out := bytes "Deleted\n" })
  else return ({ w with cluster }, { err := bytes "Delete failed: " ++ st.msg ++ bytes "\n" })

/-- `dfs mkdir`; a failure shows in what is printed only. -/
def mkdir (w : World) (env : Env) (path : Bytes) : Except Throw (World × Exit) := do
  let (cluster, st) ← Ndfs.DfsClient.mkdirs w.cluster env.now env.rpc path
  if st.code = .kOk then return ({ w with cluster }, { out := bytes "Created\n" })
  else return ({ w with cluster }, { err := bytes "Mkdir failed: " ++ st.msg ++ bytes "\n" })

/-- `dfs <op>`: the client connects first. -/
def dfs (w : World) (env : Env) (op : DfsOp) : Option (Except Throw (World × Exit)) :=
  if env.connects then
    match op with
    | .put localPath remotePath => w.put env localPath remotePath
    | .get remotePath localPath => some (w.get env remotePath localPath)
    | .ls path => some (w.ls env path)
    | .rm path => some (w.rm env path)
    | .mkdir path => some (w.mkdir env path)
    | .nothing => some (.ok (w, {}))
  else some (.ok (w, { code := 1, err := bytes "Cannot connect to NameNode\n" }))

/-- `wordcount <input> <output>`. -/
def wordcount (w : World) (env : Env) (inputPath outputPath : Bytes) : World × Exit :=
  let config : Mapred.JobConfig := { inputPath, outputPath, numReduceTasks := 1 }
  ({ w with
      files := (Mapred.JobTracker.submitJob config Mapred.wordCountMapper Mapred.wordCountReducer none).runJob env.hash
        env.sort w.files },
    { out := bytes "WordCount done, output: " ++ outputPath ++ bytes "\n" })

/-- The image that a NameNode is constructed from, if it is there. -/
def imagePath : Bytes := bytes "/tmp/mini-hadoop-nn/fsimage"

/-- `namenode [port]`; `none` when its server listens. -/
def namenode (w : World) (env : Env) (port : Option Bytes) : Except Death (Option Exit) := do
  let _ ← portArg port 9000
  let _ ← (Ndfs.NameNode.construct (w.files.lookup imagePath)).mapError .converts
  return if env.listens then none else some { code := 1 }

/-- `datanode [nn_host] [nn_port] [bs_port]`; `none` when its server listens and the NameNode is connected. -/
def datanode (w : World) (env : Env) (nnPort bsPort : Option Bytes) : Except Death (Option Exit) := do
  let _ ← portArg nnPort 9000
  let port ← portArg bsPort 9010
  if !env.directory then throw .noDirectory
  if !env.listens then return some { code := 1 }
  -- the threads of the server run, and nothing stops them when `Start` fails
  if !env.connects then throw .joinable
  let _ ← (w.cluster.startDataNode ⟨port⟩ env.boot).mapError .converts
  return none

/-- A run of a server; one that returns has changed nothing. -/
def served (w : World) : Except Death (Option Exit) → Option (Except Death (World × Exit))
  | .error e => some (.error e)
  | .ok none => none
  | .ok (some exit) => some (.ok (w, exit))

/-- `main(argc, argv)`; `none` for a run that does not return. -/
def main (w : World) (env : Env) (args : List Bytes) : Option (Except Death (World × Exit)) :=
  match Command.parse args with
  | .print text => some (.ok (w, { out := text }))
  | .refuse message => some (.ok (w, { code := 1, err := message }))
  | .namenode port => w.served (w.namenode env port)
  | .datanode _ nnPort bsPort => w.served (w.datanode env nnPort bsPort)
  | .dfs op => (w.dfs env op).map (Except.mapError .throws)
  | .wordcount inputPath outputPath => some (.ok (w.wordcount env inputPath outputPath))

end World

end MiniHadoop.Shell
