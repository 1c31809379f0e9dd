import MachineEmulator.Cxx
import MachineEmulator.Merkle.LeafIndex
import MachineEmulator.Merkle.Root
import MachineEmulator.Merkle.PristineMerkleTree
import MachineEmulator.Merkle.MerkleTreeProof
import MachineEmulator.BackMerkleTree.Basic
import MachineEmulator.BackMerkleTree.Invariant
import MachineEmulator.BackMerkleTree.Constructor
import MachineEmulator.BackMerkleTree.PushBack
import MachineEmulator.BackMerkleTree.Reachable
import MachineEmulator.BackMerkleTree.RootHash
import MachineEmulator.BackMerkleTree.NextLeafProof
import MachineEmulator.BackMerkleTree.Safety
import MachineEmulator.BackMerkleTree.Refinement
import MachineEmulator.BackMerkleTree.ProofUpdate
import MachineEmulator.Emulator.IStateAccess
