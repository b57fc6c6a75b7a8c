import AgentMemory.Proofs.Batching.Greatest
import AgentMemory.Proofs.Cancel.Once
import AgentMemory.Proofs.Compliance.Failure
import AgentMemory.Proofs.Compliance.IssueOrder
import AgentMemory.Proofs.Condenser.Meantime
import AgentMemory.Proofs.Condenser.Offset
import AgentMemory.Proofs.Condenser.Words
import AgentMemory.Proofs.Conversation.Condensing
import AgentMemory.Proofs.Conversation.Configuring
import AgentMemory.Proofs.Conversation.Interrupting
import AgentMemory.Proofs.Conversation.Reattaching
import AgentMemory.Proofs.Diagnostics
import AgentMemory.Proofs.EventLog.Page
import AgentMemory.Proofs.Run.Loss
import AgentMemory.Proofs.Run.Protocol
import AgentMemory.Proofs.Run.Rolling
import AgentMemory.Proofs.Settings.Layers
import AgentMemory.Proofs.Storage.Listing
import AgentMemory.Proofs.Summary.Transcript
import AgentMemory.Proofs.View.Best
import AgentMemory.Proofs.View.Guarantee
import AgentMemory.Proofs.View.Latest
import AgentMemory.Proofs.Wire.Runs
