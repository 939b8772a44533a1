import DevPost.Lib.Path
import DevPost.Sanity.MainFeed
import DevPost.Proofs.MainFeed
import DevPost.Spec.MyComments
import DevPost.Sanity.MyComments
import DevPost.Sanity.Listeners
import DevPost.Proofs.MyComments
import DevPost.Proofs.MyCommentsList
import DevPost.Proofs.Clients
import DevPost.Spec.Accounts
import DevPost.Proofs.Login
import DevPost.Proofs.Failures
import DevPost.Proofs.Profiles
import DevPost.Proofs.MyCommentsAccounts
import DevPost.Proofs.Directory
import DevPost.Proofs.Forms
import DevPost.Proofs.Validation
import DevPost.Proofs.Decoding
import DevPost.Proofs.PostForm
import DevPost.Sanity.TimeString
import DevPost.Proofs.Chronology
import DevPost.Proofs.DateOrder
import DevPost.Proofs.Search
import DevPost.Proofs.Threads
import DevPost.Proofs.Color
import DevPost.Proofs.DataSource
import DevPost.Proofs.Network
import DevPost.Proofs.Convergence
import DevPost.Proofs.MyCommentsRefresh
import DevPost.Proofs.Delivery
import DevPost.Proofs.ProfilesShown
import DevPost.Proofs.Conversation
import DevPost.Proofs.Provenance
import DevPost.Proofs.Availability
import DevPost.Proofs.Authentication
import DevPost.Proofs.Completions
import DevPost.Proofs.CommentForm
import DevPost.Proofs.Interleavings
import DevPost.Proofs.Schedules
import DevPost.Proofs.Phones
