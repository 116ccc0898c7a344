import NDNPaxos.Message
import NDNPaxos.ReedSolomon

/-!
# Configuration and view

The part of `View` that the protocol reads: the node's own id, the cluster
size and its quorum, the current master, the lease length and the
Reed-Solomon parameters.  `Config` is the build mode together with the file
that every node of a cluster loads.
-/

namespace NDNPaxos

/-- `MODE_TYPE`: unset, 1, 2 and 3. -/
inductive ModeType where
  | basic
  | rs
  | multi
  | quorum
deriving DecidableEq, Repr

/-- The `rs` entry of the configuration file. -/
structure RSParams where
  x : ℕ
  n : ℕ
  qr : ℕ
  qw : ℕ
  f : ℕ
deriving DecidableEq, Repr

/-- A cluster's build mode and configuration file.  `node_id_t` has 16 bits,
so at most `2 ^ 16` hosts have an id of their own. -/
structure Config where
  mode : ModeType
  hosts : List String
  masterId : ℕ := 0
  length : ℕ := 100000
  rs : Option RSParams := none
  fec : Fec := {}
  hosts_pos : 0 < hosts.length
  hosts_le : hosts.length ≤ 2 ^ 16

namespace Config

/-- `View::size_`. -/
def size (config : Config) : ℕ := config.hosts.length

/-- `View::q_size_`, that is `ceil((size_ + 1) / 2.0)`. -/
def quorumSize (config : Config) : ℕ := (config.size + 1 + 1) / 2

/-- The Reed-Solomon parameters computed when the file has no `rs` entry. -/
def defaultRS (size : ℕ) : RSParams :=
  let x := if size = 1 then 1 else if size % 2 = 0 then 2 else 3
  let qr := (size + x) / 2
  { x, n := size, qr, qw := qr, f := size - qr }

def rsParams (config : Config) : RSParams :=
  config.rs.getD (defaultRS config.size)

theorem size_pos (config : Config) : 0 < config.size := config.hosts_pos

theorem size_le (config : Config) : config.size ≤ 2 ^ 16 := config.hosts_le

theorem quorumSize_le (config : Config) : config.quorumSize ≤ config.size := by
  have hpos := config.size_pos
  unfold quorumSize
  omega

/-- Two quorums together are larger than the cluster. -/
theorem size_lt_two_quorums (config : Config) :
    config.size < config.quorumSize + config.quorumSize := by
  unfold quorumSize
  omega

end Config

def twoNodes (mode : ModeType) : Config where
  mode
  hosts := ["node0", "node1"]
  length := 4
  hosts_pos := by decide
  hosts_le := by decide

def threeNodes (mode : ModeType) : Config where
  mode
  hosts := ["node0", "node1", "node2"]
  length := 4
  hosts_pos := by decide
  hosts_le := by decide

def fourNodes (mode : ModeType) : Config where
  mode
  hosts := ["node0", "node1", "node2", "node3"]
  length := 4
  hosts_pos := by decide
  hosts_le := by decide

structure View where
  config : Config
  nodeId : ℕ
  masterId : ℕ

namespace View

/-- `View::View`: an id outside the cluster falls back to node 0. -/
def new (config : Config) (nodeId : ℕ) : View :=
  { config
    nodeId := if config.size ≤ nodeId then 0 else nodeId
    masterId := config.masterId }

def whoami (view : View) : ℕ := view.nodeId

def mode (view : View) : ModeType := view.config.mode

def nodesSize (view : View) : ℕ := view.config.size

def quorumSize (view : View) : ℕ := view.config.quorumSize

def ifMaster (view : View) : Bool := view.nodeId == view.masterId

def setMaster (view : View) (nodeId : ℕ) : View :=
  { view with masterId := nodeId }

def hostname (view : View) : String :=
  (view.config.hosts[view.nodeId]?).getD ""

@[simp] theorem setMaster_config (view : View) (nodeId : ℕ) :
    (view.setMaster nodeId).config = view.config := rfl

@[simp] theorem setMaster_nodeId (view : View) (nodeId : ℕ) :
    (view.setMaster nodeId).nodeId = view.nodeId := rfl

@[simp] theorem setMaster_masterId (view : View) (nodeId : ℕ) :
    (view.setMaster nodeId).masterId = nodeId := rfl

end View

end NDNPaxos
