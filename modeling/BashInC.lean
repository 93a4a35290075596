import BashInC.Variables
import BashInC.IoHelpers
import BashInC.Echo
import BashInC.Listing
import BashInC.Options
import BashInC.Files
import BashInC.Counting
import BashInC.Mysh
import BashInC.Commands
import BashInC.Sessions
import BashInC.Failures
import BashInC.Agreement
import BashInC.Bindings
import BashInC.Input
import BashInC.Descriptors
import BashInC.Deliveries
import BashInC.Dispatch
import BashInC.Replacing
import BashInC.Milestones
import BashInC.Tree
import BashInC.Chat
import BashInC.Traversal
import BashInC.Depths
import BashInC.Truncation
import BashInC.Validate
import BashInC.Output
import BashInC.Nodes
import BashInC.Refinement
import BashInC.Milestone4
import BashInC.Directories
import BashInC.Lineage
import BashInC.ChatRoom
