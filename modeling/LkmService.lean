import LkmService.Outbox.EventId
import LkmService.Worker.Dedup
import LkmService.Qa.Expiry
import LkmService.Counters.Orphans
import LkmService.Auth.Activation
import LkmService.Follows.Fresh
import LkmService.Feed.Listing
import LkmService.Feed.Batches
import LkmService.WriteBehind.Conservation
import LkmService.Auth.Survival
import LkmService.Reviews.Decided
import LkmService.Articles.Tags
import LkmService.Articles.Versions
import LkmService.Auth.OneWay
import LkmService.Auth.SingleUse
import LkmService.Auth.Lockout
import LkmService.Cache.Fresh
import LkmService.Bloom.Gate
import LkmService.Starhope.Pull
import LkmService.Starhope.Returned
import LkmService.Exams.Standing
import LkmService.Rbac.Settings
import LkmService.Search.Pages
import LkmService.Blog.Publish
import LkmService.Treehole.Respect
import LkmService.Search.Converge
import LkmService.UserCache.Fence
import LkmService.UserCache.Apart
import LkmService.Cache.Keys
import LkmService.Moderation.Rules
import LkmService.Limiter.Exact
import LkmService.Breaker.Probes
import LkmService.Metrics.Overcount
import LkmService.Blog.Backfill
import LkmService.Lease.Exclusive
import LkmService.Reconcile.Complete
import LkmService.Replies.InStep
import LkmService.Auth.Hierarchy
import LkmService.Plugins.Host
import LkmService.Files.Notify
import LkmService.Auth.Registration
import LkmService.Quotas.Bound
import LkmService.Repository.Cas
import LkmService.Notifications.Aggregation
