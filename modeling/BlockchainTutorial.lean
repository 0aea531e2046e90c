import BlockchainTutorial.Lib.Quorum
import BlockchainTutorial.Lib.Rings
import BlockchainTutorial.Lib.Pool
import BlockchainTutorial.Lib.Mapping
import BlockchainTutorial.Lib.TopTwo
import BlockchainTutorial.Lib.HashTree
import BlockchainTutorial.Lib.Links
import BlockchainTutorial.Lib.Loops
import BlockchainTutorial.Lib.Positions
import BlockchainTutorial.Lib.Reach
import BlockchainTutorial.Lib.BigEndian
import BlockchainTutorial.Lib.Simulation
import BlockchainTutorial.Labrpc.Network
import BlockchainTutorial.Raft.Cluster
import BlockchainTutorial.Raft.Steps
import BlockchainTutorial.Raft.Votes
import BlockchainTutorial.Raft.Calls
import BlockchainTutorial.Raft.Election
import BlockchainTutorial.Raft.LogMatching
import BlockchainTutorial.Raft.Repair
import BlockchainTutorial.Raft.Completeness
import BlockchainTutorial.Raft.Replication
import BlockchainTutorial.Raft.Safety
import BlockchainTutorial.Raft.Compaction
import BlockchainTutorial.Raft.CoreSteps
import BlockchainTutorial.Raft.Stored
import BlockchainTutorial.Raft.IndexBounds
import BlockchainTutorial.Raft.ForwardOnly
import BlockchainTutorial.Raft.CrashPoints
import BlockchainTutorial.Raft.TermBounds
import BlockchainTutorial.Raft.LogShape
import BlockchainTutorial.Raft.Recovery
import BlockchainTutorial.Raft.Acknowledged
import BlockchainTutorial.Raft.Promises
import BlockchainTutorial.Raft.Applier
import BlockchainTutorial.Pbft.CommitOnce
import BlockchainTutorial.Pbft.Messages
import BlockchainTutorial.Pbft.Servers
import BlockchainTutorial.Pbft.Turns
import BlockchainTutorial.Pbft.BadPrePrepare
import BlockchainTutorial.Pbft.Agreement
import BlockchainTutorial.Pbft.Certificates
import BlockchainTutorial.Pbft.Faultless
import BlockchainTutorial.Pbft.Coherence
import BlockchainTutorial.Pbft.Requests
import BlockchainTutorial.Pbft.Deadlock
import BlockchainTutorial.ProofOfStake.Server
import BlockchainTutorial.ProofOfStake.ChainValidity
import BlockchainTutorial.ProofOfStake.Lottery
import BlockchainTutorial.ProofOfStake.BlockRecord
import BlockchainTutorial.ProofOfStake.Ledger
import BlockchainTutorial.DelegatedProofOfStake.Block
import BlockchainTutorial.DelegatedProofOfStake.Tampering
import BlockchainTutorial.DelegatedProofOfStake.Election
import BlockchainTutorial.Bitcoin.Amounts
import BlockchainTutorial.Bitcoin.Transaction
import BlockchainTutorial.Bitcoin.Authorization
import BlockchainTutorial.Bitcoin.Block
import BlockchainTutorial.Bitcoin.MerkleTree
import BlockchainTutorial.Bitcoin.Commitment
import BlockchainTutorial.Bitcoin.Blockchain
import BlockchainTutorial.Bitcoin.BlockStore
import BlockchainTutorial.Bitcoin.ChainWalk
import BlockchainTutorial.Bitcoin.TipHeight
import BlockchainTutorial.Bitcoin.Unspent
import BlockchainTutorial.Bitcoin.AddressStage
import BlockchainTutorial.Bitcoin.UtxoUpdate
import BlockchainTutorial.Bitcoin.Rebuild
import BlockchainTutorial.Bitcoin.ScanOrder
import BlockchainTutorial.Bitcoin.Server
import BlockchainTutorial.Bitcoin.Supply
import BlockchainTutorial.Bitcoin.ArrivalOrder
import BlockchainTutorial.Bitcoin.Send
import BlockchainTutorial.Bitcoin.Selection
import BlockchainTutorial.Bitcoin.Signing
import BlockchainTutorial.Bitcoin.KeyEncoding
import BlockchainTutorial.Bitcoin.Base58
import BlockchainTutorial.Bitcoin.Address
import BlockchainTutorial.Bitcoin.AddressCheck
import BlockchainTutorial.Bitcoin.MiningLoop
import BlockchainTutorial.Bitcoin.Mining
import BlockchainTutorial.Bitcoin.Payment
import BlockchainTutorial.Bitcoin.Bookkeeping
import BlockchainTutorial.Bitcoin.Reindex
import BlockchainTutorial.Bitcoin.Peer
import BlockchainTutorial.Bitcoin.Announced
import BlockchainTutorial.Bitcoin.Indexing
import BlockchainTutorial.Bitcoin.InitialSync
import BlockchainTutorial.Bitcoin.SelectOutputs
import BlockchainTutorial.Bitcoin.CreateMerkle
import BlockchainTutorial.Bitcoin.Wire
import BlockchainTutorial.Bitcoin.Encoding
import BlockchainTutorial.Bitcoin.Gossip
import BlockchainTutorial.Bitcoin.WireSync
import BlockchainTutorial.Bitcoin.DataChain
import BlockchainTutorial.Bitcoin.PrototypeChain
import BlockchainTutorial.Auction.Escrow
import BlockchainTutorial.Auction.EcommerceStore
import BlockchainTutorial.Auction.Calls
import BlockchainTutorial.Auction.Solvency
import BlockchainTutorial.Auction.Prices
import BlockchainTutorial.Auction.SealedBid
import BlockchainTutorial.Auction.SecondPrice
import BlockchainTutorial.Auction.Phases
import BlockchainTutorial.Auction.Custody
import BlockchainTutorial.Auction.Voting
import BlockchainTutorial.Auction.VoteCount
import BlockchainTutorial.Auction.Refusal
import BlockchainTutorial.Crowdfunding.Project
import BlockchainTutorial.Crowdfunding.Payouts
import BlockchainTutorial.Crowdfunding.Contributions
import BlockchainTutorial.Fabric.Stub
import BlockchainTutorial.Fabric.AssetsExchange
import BlockchainTutorial.Fabric.Ownership
import BlockchainTutorial.Fabric.History
import BlockchainTutorial.Fabric.BookManager
import BlockchainTutorial.Fabric.ExampleCc
import BlockchainTutorial.Fabric.Catalogue
import BlockchainTutorial.Fabric.AtguiguCar
